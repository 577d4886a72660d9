import FuzzCampaign.Campaign.Staging
import FuzzCampaign.Storage.FileTree
import Mathlib.Data.List.Basic
import Mathlib.Data.List.Nodup
import Std.Data.String.ToNat

/-!
# Everything has a place of its own

A name leads one step down in a tree of files.  Whatever a campaign keeps is found below
its output directory, either directly or in the directory of the fleet, under a name that
nothing else has.  The names of workers are told apart by their numbers, which never
repeat, and by their first letter from all others; a log and a directory differ in the dot
of the log.

Main definitions:

- `Path.IsName`: a text that leads one step down.
- `Layout.Item`: what a campaign keeps, with its path and its address, the names that lead
  to it from the output directory.

Main results:

- `Path.steps_join`: joining a name to a path adds a step.
- `workerName_injective`: no two workers share a name.
- `Layout.Item.address_injective`: no two items share an address.
- `Layout.pathOf_mem_artifacts`: which items a finished round leaves behind.
-/

namespace FuzzCampaign

/-! ## Names -/

namespace Path

/-- A text that leads one step down: it has no slash, is not empty, and is not made of one or
two dots only. -/
structure IsName (name : String) : Prop where
  ne_empty : name ≠ ""
  ne_dot : name ≠ "."
  ne_dots : name ≠ ".."
  slash_not_mem : '/' ∉ name.toList

/-- A text without slashes is a name if it does not start with a dot. -/
theorem IsName.of_toList {name : String} {c : Char} {rest : List Char}
    (h : name.toList = c :: rest) (hdot : c ≠ '.') (hslash : '/' ∉ c :: rest) : IsName name := by
  have hne : ∀ other : String, other.toList.head? ≠ some c → name ≠ other := by
    rintro other hother rfl
    rw [h] at hother
    exact hother rfl
  refine ⟨hne _ (by simp), hne _ ?_, hne _ ?_, h ▸ hslash⟩
  · simpa using hdot.symm
  · simpa using hdot.symm

/-- A name is relative. -/
theorem IsName.relative {name : String} (h : IsName name) : isAbsoluteText name = false := by
  rw [isAbsoluteText, beq_eq_false_iff_ne]
  intro hhead
  exact h.slash_not_mem (List.mem_of_mem_head? hhead)

/-- The steps of a path with a name behind a slash. -/
theorem steps_of_text {p q : Path} {name : String} (h : IsName name)
    (htext : q.text.toList = p.text.toList ++ '/' :: name.toList) :
    q.steps = p.steps ++ [name] := by
  have hpieces : Text.pieces '/' q.text.toList =
      Text.pieces '/' p.text.toList ++ [name.toList] := by
    rw [htext, Text.pieces_append, Text.pieces_of_not_mem h.slash_not_mem]
  simp [steps, parts, hpieces, h.ne_empty, h.ne_dot]

/-- Joining a name to a path adds a step. -/
theorem steps_join (p : Path) {name : String} (h : IsName name) :
    (p.join name).steps = p.steps ++ [name] := by
  have htext := text_join (p := p) h.relative
  rcases List.eq_nil_or_concat' p.text.toList with hempty | ⟨front, last, hlast⟩
  · have hp : p.text = "" := String.toList_eq_nil_iff.1 hempty
    have hjoin : (p.join name).text.toList = name.toList := by
      rw [htext, separator, hp]
      simp
    simp [steps, parts, hjoin, Text.pieces_of_not_mem h.slash_not_mem, hp, Text.pieces,
      h.ne_empty, h.ne_dot]
  · by_cases hslash : last = '/'
    · -- the path ends in a slash, which separates nothing from the name
      have hfront : p.steps = (⟨String.ofList front⟩ : Path).steps := by
        have hpieces : Text.pieces '/' p.text.toList = Text.pieces '/' front ++ [[]] := by
          rw [hlast, hslash, Text.pieces_append]
          rfl
        simp [steps, parts, hpieces]
      rw [hfront]
      refine steps_of_text h ?_
      rw [htext, separator, hlast, hslash]
      simp [hlast, hslash]
    · refine steps_of_text h ?_
      have hne : p.text.isEmpty = false := by
        rw [Bool.eq_false_iff]
        intro hp
        rw [String.isEmpty_iff.1 hp] at hlast
        simp at hlast
      rw [htext, separator, hne, hlast]
      simp [hlast, hslash]

/-- The last step of a path is the name that was joined to it. -/
theorem fileName?_join (p : Path) {name : String} (h : IsName name) :
    (p.join name).fileName? = some name := by
  rw [fileName?, steps_join p h, List.getLast?_concat]
  exact if_neg h.ne_dots

end Path

open FuzzCampaign.Path

/-! ### Numbered names -/

/-- A number is written with digits only. -/
theorem isDigit_of_mem_toString {c : Char} {n : Nat} (h : c ∈ (toString n).toList) :
    c.isDigit = true := by
  rw [Nat.toString_eq_repr, Nat.repr_eq_ofList_toDigits, String.toList_ofList] at h
  exact Nat.isDigit_of_mem_toDigits (by decide) (by decide) h

/-- A number between two texts without slashes makes a name. -/
theorem isName_numbered {front : String} (n : Nat) (back : String) {c : Char} {rest : List Char}
    (hfront : front.toList = c :: rest) (hdot : c ≠ '.') (hslash : '/' ∉ c :: rest)
    (hback : '/' ∉ back.toList) : IsName (front ++ toString n ++ back) := by
  have htext : (front ++ toString n ++ back).toList =
      c :: (rest ++ ((toString n).toList ++ back.toList)) := by simp [hfront]
  refine .of_toList htext hdot ?_
  intro hmem
  rw [← List.cons_append, List.mem_append, List.mem_append] at hmem
  rcases hmem with hmem | hmem | hmem
  · exact hslash hmem
  · exact absurd (isDigit_of_mem_toString hmem) (by decide)
  · exact hback hmem

theorem toString_injective {m n : Nat} (h : toString m = toString n) : m = n := by
  rwa [Nat.toString_eq_repr, Nat.toString_eq_repr, Nat.repr_inj] at h

/-- No two round workers of a campaign share a name. -/
theorem workerName_injective {i j r s workers : Nat} (hi : 1 ≤ i ∧ i ≤ workers)
    (hj : 1 ≤ j ∧ j ≤ workers) (hr : 1 ≤ r) (hs : 1 ≤ s)
    (h : workerName i r workers = workerName j s workers) : i = j ∧ r = s :=
  workerNumber_injective hi hj hr hs (toString_injective (String.append_right_inj _ |>.1 h))

/-- The name of a worker has no dot, unlike that of a log. -/
theorem dot_not_mem_workerName (index round workers : Nat) :
    '.' ∉ (workerName index round workers).toList := by
  rw [workerName, String.toList_append, List.mem_append]
  rintro (hmem | hmem)
  · exact absurd hmem (by decide)
  · exact absurd (isDigit_of_mem_toString hmem) (by decide)

namespace Layout

/-! ## Items -/

/-- What there is only one of in the directory of the fleet. -/
inductive Fixture where
  | monitorDir | monitorLog | seedsOrigin | seeds | tasks | callGraphDot | callGraphJson
  deriving Repr, DecidableEq

/-- The name of a fixture. -/
def Fixture.name : Fixture → String
  | monitorDir => monitorName
  | monitorLog => monitorName ++ ".log"
  | seedsOrigin => "seeds_origin"
  | seeds => "seeds"
  | tasks => "tasks"
  | callGraphDot => "callgraph.dot"
  | callGraphJson => "callgraph.json"

theorem Fixture.isName_name (f : Fixture) : IsName f.name := by
  cases f <;> exact ⟨by decide, by decide, by decide, by decide⟩

theorem Fixture.name_injective {a b : Fixture} (h : a.name = b.name) : a = b := by
  cases a <;> cases b <;> first | rfl | exact absurd h (by decide)

/-- What a campaign keeps. -/
inductive Item where
  | fixture (f : Fixture)
  /-- The output directory of a round worker. -/
  | workerDir (index round : Nat)
  | workerLog (index round : Nat)
  /-- What a finished round left behind. -/
  | backup (round : Nat)
  deriving Repr, DecidableEq

/-- The path of a fixture. -/
def fixturePath (l : Layout) : Fixture → Path
  | .monitorDir => l.workerDir monitorName
  | .monitorLog => l.monitorLog
  | .seedsOrigin => l.seedsOrigin
  | .seeds => l.seeds
  | .tasks => l.tasks
  | .callGraphDot => l.callGraphDot
  | .callGraphJson => l.callGraphJson

/-- The path of an item, when every round has so many workers. -/
def pathOf (l : Layout) (workers : Nat) : Item → Path
  | .fixture f => l.fixturePath f
  | .workerDir index round => l.workerDir (workerName index round workers)
  | .workerLog index round => l.workerLog (workerName index round workers)
  | .backup round => l.backupDir round

namespace Item

/-- The name of an item in its directory. -/
def name (workers : Nat) : Item → String
  | fixture f => f.name
  | workerDir index round => workerName index round workers
  | workerLog index round => workerName index round workers ++ ".log"
  | backup round => "backup_round_" ++ toString round

/-- The names that lead from the output directory to the directory of an item. -/
def shelf : Item → Place
  | backup _ => []
  | _ => ["active_runs"]

/-- The names that lead to an item from the output directory. -/
def address (workers : Nat) (item : Item) : Place := item.shelf ++ [item.name workers]

/-- Workers and rounds are counted from one. -/
def IsCounted (workers : Nat) : Item → Prop
  | workerDir index round => (1 ≤ index ∧ index ≤ workers) ∧ 1 ≤ round
  | workerLog index round => (1 ≤ index ∧ index ≤ workers) ∧ 1 ≤ round
  | _ => True

theorem isName_name (workers : Nat) (item : Item) : IsName (item.name workers) := by
  cases item with
  | fixture f => exact f.isName_name
  | workerDir index round =>
    simpa [name, workerName] using isName_numbered (workerNumber index round workers) "" rfl
      (by decide : 'f' ≠ '.') (by decide) (by decide)
  | workerLog index round =>
    exact isName_numbered _ _ rfl (by decide : 'f' ≠ '.') (by decide) (by decide)
  | backup round =>
    simpa [name] using isName_numbered round "" rfl (by decide : 'b' ≠ '.') (by decide)
      (by decide)

/-- The name of a worker or its log starts like no fixture. -/
theorem name_fixture_ne (f : Fixture) (index round workers : Nat) (back : String) :
    f.name ≠ workerName index round workers ++ back := by
  intro h
  have hhead := congrArg (fun name => name.toList.head?) h
  cases f <;> simp [Fixture.name, workerName, monitorName] at hhead

/-- In one directory no two items share a name. -/
theorem eq_of_name_eq {workers : Nat} {a b : Item} (ha : a.IsCounted workers)
    (hb : b.IsCounted workers) (hshelf : a.shelf = b.shelf)
    (hname : a.name workers = b.name workers) : a = b := by
  have hdir : ∀ i r j s, workerName i r workers ≠ workerName j s workers ++ ".log" := by
    intro i r j s h
    refine dot_not_mem_workerName i r workers ?_
    rw [h]
    simp
  have hfixture : ∀ (f : Fixture) i r, f.name ≠ workerName i r workers := by
    intro f i r h
    exact name_fixture_ne f i r workers "" (by rw [h, String.append_empty])
  cases a with
  | fixture f =>
    cases b with
    | fixture f' => rw [Fixture.name_injective hname]
    | workerDir j s => exact absurd hname (hfixture f j s)
    | workerLog j s => exact absurd hname (name_fixture_ne f j s workers ".log")
    | backup s => cases hshelf
  | workerDir i r =>
    cases b with
    | fixture f => exact absurd hname.symm (hfixture f i r)
    | workerDir j s =>
      obtain ⟨rfl, rfl⟩ := workerName_injective ha.1 hb.1 ha.2 hb.2 hname
      rfl
    | workerLog j s => exact absurd hname (hdir i r j s)
    | backup s => cases hshelf
  | workerLog i r =>
    cases b with
    | fixture f => exact absurd hname.symm (name_fixture_ne f i r workers ".log")
    | workerDir j s => exact absurd hname.symm (hdir j s i r)
    | workerLog j s =>
      obtain ⟨rfl, rfl⟩ := workerName_injective ha.1 hb.1 ha.2 hb.2
        (String.append_left_inj _ |>.1 hname)
      rfl
    | backup s => cases hshelf
  | backup r =>
    cases b with
    | backup s => rw [toString_injective (String.append_right_inj _ |>.1 hname)]
    | _ => cases hshelf

/-- No two items share an address. -/
theorem address_injective {workers : Nat} {a b : Item} (ha : a.IsCounted workers)
    (hb : b.IsCounted workers) (h : a.address workers = b.address workers) : a = b := by
  obtain ⟨hshelf, hname⟩ := List.append_inj' h rfl
  rw [List.singleton_inj] at hname
  exact eq_of_name_eq ha hb hshelf hname

end Item

/-! ## Paths of items -/

/-- All but the backups are in the directory of the fleet. -/
theorem pathOf_active (l : Layout) (workers : Nat) {item : Item}
    (h : item.shelf = ["active_runs"]) :
    l.pathOf workers item = l.activeRuns.join (item.name workers) := by
  cases item with
  | fixture f => cases f <;> rfl
  | workerDir index round => rfl
  | workerLog index round => rfl
  | backup round => cases h

/-- Whatever places paths lead to, if a joined name leads one step down then the place of an
item is its address below the place of the output directory. -/
theorem place_pathOf {place : Path → Place}
    (hjoin : ∀ p name, IsName name → place (p.join name) = place p ++ [name]) (l : Layout)
    (workers : Nat) (item : Item) :
    place (l.pathOf workers item) = place l.outDir ++ item.address workers := by
  have hactive : place l.activeRuns = place l.outDir ++ ["active_runs"] :=
    hjoin _ _ ⟨by decide, by decide, by decide, by decide⟩
  have hshelved (hshelf : item.shelf = ["active_runs"]) :
      place (l.pathOf workers item) = place l.outDir ++ item.address workers := by
    rw [pathOf_active l workers hshelf, hjoin _ _ (item.isName_name workers), hactive,
      List.append_assoc, Item.address, hshelf]
  cases item with
  | backup round => exact hjoin _ _ (Item.isName_name workers (.backup round))
  | _ => exact hshelved rfl

/-- The path of an item ends in its name. -/
theorem fileName?_pathOf (l : Layout) (workers : Nat) (item : Item) :
    (l.pathOf workers item).fileName? = some (item.name workers) := by
  have hname := item.isName_name workers
  cases item with
  | backup round => exact fileName?_join _ hname
  | _ =>
    rw [pathOf_active l workers rfl]
    exact fileName?_join _ hname

/-- The steps of the path of an item. -/
theorem steps_pathOf (l : Layout) (workers : Nat) (item : Item) :
    (l.pathOf workers item).steps = l.outDir.steps ++ item.address workers :=
  place_pathOf (fun p _ h => p.steps_join h) l workers item

/-- The paths of two items differ, however they are written. -/
theorem steps_pathOf_injective {l : Layout} {workers : Nat} {a b : Item}
    (ha : a.IsCounted workers) (hb : b.IsCounted workers)
    (h : (l.pathOf workers a).steps = (l.pathOf workers b).steps) : a = b := by
  rw [steps_pathOf, steps_pathOf, List.append_cancel_left_eq] at h
  exact Item.address_injective ha hb h

/-! ## What a finished round leaves behind -/

/-- The items that a finished round leaves behind. -/
def leavings (round workers : Nat) : List Item :=
  [.fixture .callGraphDot, .fixture .callGraphJson, .fixture .tasks, .fixture .seeds] ++
    (List.range' 1 workers).flatMap fun index => [.workerDir index round, .workerLog index round]

theorem artifacts_eq_map (l : Layout) (round workers : Nat) :
    artifacts l round workers = (leavings round workers).map (l.pathOf workers) := by
  rw [artifacts, leavings, List.map_append, List.map_flatMap]
  rfl

/-- Moving items, one after the other: those that are there go under their names. -/
theorem moveAll_cons {σ : Type} (files : FileSystem σ) (l : Layout) (workers : Nat) (target : Path)
    (item : Item) (items : List Item) :
    moveAll files target ((item :: items).map (l.pathOf workers)) = (do
      if ← Action.observe (files.isPresent (l.pathOf workers item)) then
        (files.move (l.pathOf workers item) (target.join (item.name workers))).orFail
          (.io (l.pathOf workers item))
      moveAll files target (items.map (l.pathOf workers))) := by
  rw [List.map_cons, moveAll, fileName?_pathOf]

theorem isCounted_of_mem_leavings {round workers : Nat} (hround : 1 ≤ round) {item : Item}
    (h : item ∈ leavings round workers) : item.IsCounted workers := by
  rw [leavings, List.mem_append, List.mem_flatMap] at h
  rcases h with h | ⟨index, hindex, h⟩
  · simp only [List.mem_cons, List.not_mem_nil, or_false] at h
    rcases h with rfl | rfl | rfl | rfl <;> trivial
  · rw [List.mem_range'_1] at hindex
    simp only [List.mem_cons, List.not_mem_nil, or_false] at h
    rcases h with rfl | rfl
    · exact ⟨⟨hindex.1, by omega⟩, hround⟩
    · exact ⟨⟨hindex.1, by omega⟩, hround⟩

theorem shelf_of_mem_leavings {round workers : Nat} {item : Item}
    (h : item ∈ leavings round workers) : item.shelf = ["active_runs"] := by
  rw [leavings, List.mem_append, List.mem_flatMap] at h
  rcases h with h | ⟨index, -, h⟩
  · simp only [List.mem_cons, List.not_mem_nil, or_false] at h
    rcases h with rfl | rfl | rfl | rfl <;> rfl
  · simp only [List.mem_cons, List.not_mem_nil, or_false] at h
    rcases h with rfl | rfl <;> rfl

/-- What a round leaves behind has different names. -/
theorem nodup_name_leavings {round workers : Nat} (hround : 1 ≤ round) :
    ((leavings round workers).map (·.name workers)).Nodup := by
  have hnodup : (leavings round workers).Nodup := by
    rw [leavings, List.nodup_append, List.nodup_flatMap]
    refine ⟨by decide, ⟨fun index _ => by simp, List.Pairwise.imp ?_ List.nodup_range'⟩, ?_⟩
    · intro i j hij
      simp [Function.onFun, List.disjoint_left, hij]
    · rintro a ha _ hb rfl
      obtain ⟨index, -, hb⟩ := List.mem_flatMap.1 hb
      simp only [List.mem_cons, List.not_mem_nil, or_false] at ha hb
      rcases hb with rfl | rfl <;> simp at ha
  refine List.Nodup.map_on ?_ hnodup
  intro a ha b hb hab
  exact Item.eq_of_name_eq (isCounted_of_mem_leavings hround ha)
    (isCounted_of_mem_leavings hround hb)
    ((shelf_of_mem_leavings ha).trans (shelf_of_mem_leavings hb).symm) hab

/-- The path of an item is an artifact of a round exactly when the round leaves it behind. -/
theorem pathOf_mem_artifacts {l : Layout} {round workers : Nat} (hround : 1 ≤ round) {item : Item}
    (hitem : item.IsCounted workers) :
    l.pathOf workers item ∈ artifacts l round workers ↔ item ∈ leavings round workers := by
  rw [artifacts_eq_map, List.mem_map]
  constructor
  · rintro ⟨other, hother, heq⟩
    have hcounted := isCounted_of_mem_leavings hround hother
    rwa [← steps_pathOf_injective hcounted hitem (congrArg Path.steps heq)]
  · intro h
    exact ⟨item, h, rfl⟩

theorem workerDir_mem_leavings {index round other workers : Nat}
    (hindex : 1 ≤ index ∧ index ≤ workers) :
    Item.workerDir index other ∈ leavings round workers ↔ other = round := by
  simp only [leavings, List.mem_append, List.mem_cons, List.mem_flatMap, List.mem_range'_1,
    List.not_mem_nil, or_false, reduceCtorEq, false_or, Item.workerDir.injEq]
  constructor
  · rintro ⟨_, -, -, hround⟩
    exact hround
  · intro hround
    exact ⟨index, ⟨hindex.1, by omega⟩, rfl, hround⟩

theorem workerLog_mem_leavings {index round other workers : Nat}
    (hindex : 1 ≤ index ∧ index ≤ workers) :
    Item.workerLog index other ∈ leavings round workers ↔ other = round := by
  simp only [leavings, List.mem_append, List.mem_cons, List.mem_flatMap, List.mem_range'_1,
    List.not_mem_nil, or_false, reduceCtorEq, false_or, Item.workerLog.injEq]
  constructor
  · rintro ⟨_, -, -, hround⟩
    exact hround
  · intro hround
    exact ⟨index, ⟨hindex.1, by omega⟩, rfl, hround⟩

end Layout

end FuzzCampaign
