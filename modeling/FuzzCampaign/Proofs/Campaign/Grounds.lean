import FuzzCampaign.Proofs.Campaign.Outcome
import FuzzCampaign.Proofs.Campaign.Roster
import FuzzCampaign.Proofs.Campaign.Rounds
import FuzzCampaign.Proofs.Storage.Views

/-!
# The grounds of a campaign

The grounds of a campaign are what is found below its output directory.  Besides the
scheduler only the fleet writes there: the monitor and the workers of the rounds, each into
its own directory and its own log.  Everything else on the grounds is the scheduler's work.

Main definitions:

- `Grounds.Spares`: a change of the grounds that touches things of some names only.
- `Campaign.Undisturbed`: a crew that writes on the grounds what is its own only.
- `PartitionPlan.files`: the files that a plan is written to.

Main results:

- `spares_watch` and `spares_refresh`: what rounds and passes may touch.
- `grounds_partition` and `grounds_dumpGraph`: what the scheduler writes.
- `rotated_of_rotateArtifacts`: what the rotation moves.
-/

namespace FuzzCampaign

open FuzzCampaign.Action View

/-! ## Changes of the grounds -/

namespace Grounds

/-- A place at or below something of the directory of the fleet. -/
def Within (touched : String → Prop) (place : Place) : Prop :=
  ∃ name rest, touched name ∧ place = "active_runs" :: name :: rest

/-- Between two views of the grounds only things of some names changed, all of them in the
directory of the fleet. -/
def Spares (touched : String → Prop) (u u' : View) : Prop :=
  ∀ place, ¬ Within touched place → u' place = u place

variable {touched : String → Prop} {u u' u'' : View} {name : String}

/-- Nothing is touched where nothing happens. -/
theorem Spares.refl (touched : String → Prop) (u : View) : Spares touched u u := fun _ _ => rfl

/-- What two steps spare is spared by both together. -/
theorem Spares.trans (h : Spares touched u u') (h' : Spares touched u' u'') :
    Spares touched u u'' := fun place hplace => (h' place hplace).trans (h place hplace)

/-- More names may be touched than were. -/
theorem Spares.mono {more : String → Prop} (h : Spares touched u u')
    (hmore : ∀ name, touched name → more name) : Spares more u u' := by
  intro place hplace
  refine h place ?_
  rintro ⟨name, rest, hname, rfl⟩
  exact hplace ⟨name, rest, hmore name hname, rfl⟩

/-- What is not touched stays as it is. -/
theorem Spares.below_eq (h : Spares touched u u') (hname : ¬ touched name) :
    u'.below ["active_runs", name] = u.below ["active_runs", name] := by
  funext rest
  refine h _ ?_
  rintro ⟨other, back, hother, heq⟩
  cases heq
  exact hname hother

/-- So does everything outside of the directory of the fleet. -/
theorem Spares.below_top (h : Spares touched u u') (hname : name ≠ "active_runs") :
    u'.below [name] = u.below [name] := by
  funext rest
  refine h _ ?_
  rintro ⟨other, back, -, heq⟩
  cases heq
  exact hname rfl

/-- The directory of the active runs itself is spared. -/
theorem Spares.active_eq (h : Spares touched u u') : u' ["active_runs"] = u ["active_runs"] := by
  refine h _ ?_
  rintro ⟨other, back, -, heq⟩
  cases heq

/-- Writing a file touches the thing that it is in. -/
theorem spares_put (u : View) (name : String) (rest : Place) (content : ByteArray) :
    Spares (· = name) u (u.put ("active_runs" :: name :: rest) content) := by
  intro place hplace
  refine put_of_ne ?_
  intro heq
  exact hplace ⟨name, rest, rfl, heq⟩

/-- Files that are put into a directory touch that directory alone. -/
theorem spares_putAll (u : View) (name : String) (files : List (String × ByteArray)) :
    Spares (· = name) u (u.putAll ["active_runs", name] files) := by
  intro place hplace
  refine putAll_of_ne ?_
  intro file heq
  exact hplace ⟨name, [file], rfl, heq⟩

/-- Creating a directory touches the thing that it is in. -/
theorem spares_opened (hu : u.IsTree) (hactive : u ["active_runs"] = some .directory)
    (name : String) (rest : Place) :
    Spares (· = name) u (u.opened ("active_runs" :: name :: rest)) := by
  intro place hplace
  refine if_neg ?_
  rintro ⟨hbefore, hnone⟩
  match place with
  | [] =>
    rw [hu [] "active_runs" (hactive ▸ Option.some_ne_none _)] at hnone
    cases hnone
  | [first] =>
    rw [(List.cons_prefix_cons.1 hbefore).1, hactive] at hnone
    cases hnone
  | first :: second :: back =>
    obtain ⟨rfl, hinner⟩ := List.cons_prefix_cons.1 hbefore
    exact hplace ⟨second, back, (List.cons_prefix_cons.1 hinner).1, rfl⟩

end Grounds

open Grounds

/-- The files that a plan is written to: one for each task, and one for the tree that was
cut, if there was one. -/
def PartitionPlan.files (plan : PartitionPlan) (graph : CallGraph) : List (String × ByteArray) :=
  (plan.tasks.zipIdx 1).map (fun entry =>
    ("task_" ++ toString entry.2 ++ ".txt", entry.1.render.toUTF8)) ++
    plan.arborescence.toList.map fun tree => ("msa.dot", (graph.toDotWith tree).toUTF8)

/-- The files of a plan have different names. -/
theorem PartitionPlan.nodup_files (plan : PartitionPlan) (graph : CallGraph) :
    ((plan.files graph).map Prod.fst).Nodup := by
  have hnames : (plan.files graph).map Prod.fst =
      ((List.range' 1 plan.tasks.length).map fun n => "task_" ++ toString n ++ ".txt") ++
        plan.arborescence.toList.map fun _ => "msa.dot" := by
    rw [files, List.map_append, List.map_map, List.map_map, ← List.zipIdx_map_snd 1 plan.tasks,
      List.map_map]
    rfl
  rw [hnames, List.nodup_append]
  refine ⟨List.Nodup.map_on ?_ List.nodup_range', ?_, ?_⟩
  · intro m _ n _ hmn
    exact toString_injective (String.append_right_inj _ |>.1 (String.append_left_inj _ |>.1 hmn))
  · cases plan.arborescence <;> simp
  · rintro _ htask _ htree rfl
    obtain ⟨n, -, htask⟩ := List.mem_map.1 htask
    obtain ⟨tree, -, htree⟩ := List.mem_map.1 htree
    have hhead := congrArg (fun name => name.toList.head?) (htask.trans htree.symm)
    simp at hhead

namespace Layout.Item

/-- What the fleet writes by itself. -/
def IsFleet : Item → Prop
  | fixture .monitorDir => True
  | fixture .monitorLog => True
  | workerDir _ _ => True
  | workerLog _ _ => True
  | _ => False

end Layout.Item

open Layout

/-- The names of what the fleet writes by itself: directories and logs of the monitor and of
round workers. -/
def IsFleetName (workers : Nat) (name : String) : Prop :=
  ∃ item : Item, item.IsFleet ∧ item.IsCounted workers ∧ name = item.name workers

/-- All else has another name. -/
theorem not_isFleetName {workers : Nat} {item : Item} (hitem : item.IsCounted workers)
    (hshelf : item.shelf = ["active_runs"]) (hfleet : ¬ item.IsFleet) :
    ¬ IsFleetName workers (item.name workers) := by
  rintro ⟨other, hother, hcounted, hname⟩
  have hsame : other.shelf = ["active_runs"] := by
    cases other with
    | backup round => exact hother.elim
    | _ => rfl
  rw [Item.eq_of_name_eq hitem hcounted (hshelf.trans hsame.symm) hname] at hfleet
  exact hfleet hother

namespace Campaign

open Progress

variable {σ : Type} (c : Campaign) (crew : Crew σ) (place : Path → Place) (look : σ → View)

/-- What is found below the output directory. -/
def grounds (world : σ) : View := (look world).below (place c.settings.layout.outDir)

/-- What a campaign launches: the monitor and round workers. -/
def Launches (spec : WorkerSpec) : Prop :=
  spec = c.settings.fleet.monitor ∨ ∃ phase index round,
    (1 ≤ index ∧ index ≤ c.settings.roundWorkers) ∧ 1 ≤ round ∧
      spec = c.settings.fleet.roundWorker phase index round

/-- Files obey a view, and besides the scheduler only the fleet writes below the output
directory, where the monitor and the round workers have a directory and a log each.  The fleet
writes while workers are launched and stopped, while the campaign waits, and while seeds are
profiled. -/
structure Undisturbed : Prop where
  obeys : crew.files.Obeys place look
  launch : ∀ spec world, c.Launches spec → Spares (IsFleetName c.settings.roundWorkers)
    (c.grounds place look world) (c.grounds place look (crew.launch spec world).2)
  terminate : ∀ worker world, Spares (IsFleetName c.settings.roundWorkers)
    (c.grounds place look world) (c.grounds place look (crew.terminate worker world).2)
  pause : ∀ millis world, Spares (IsFleetName c.settings.roundWorkers)
    (c.grounds place look world) (c.grounds place look (crew.pause millis world).2)
  profile : ∀ seeds world, Spares (IsFleetName c.settings.roundWorkers)
    (c.grounds place look world) (c.grounds place look (crew.profile seeds world).2)

variable {c crew place look} (h : c.Undisturbed crew place look)

include h

/-! ## What the fleet may touch -/

/-- A launch of the campaign touches the directories of the fleet alone. -/
theorem spares_launch {spec : WorkerSpec} (hspec : c.Launches spec) (p : Progress σ) :
    Spares (IsFleetName c.settings.roundWorkers) (c.grounds place look p.world)
      (c.grounds place look (Progress.launch crew spec p).2.world) := by
  have hlaunch := h.launch spec p.world hspec
  cases hanswer : crew.launch spec p.world with
  | mk answer world =>
    rw [hanswer] at hlaunch
    cases answer with
    | ok worker =>
      rw [launch_of_ok crew p hanswer]
      exact hlaunch
    | error e =>
      rw [launch_of_error crew p hanswer]
      exact hlaunch

/-- A pause touches the directories of the fleet alone. -/
theorem spares_pause (millis round : Nat) (p : Progress σ) :
    Spares (IsFleetName c.settings.roundWorkers) (c.grounds place look p.world)
      (c.grounds place look (Progress.pause crew millis round p).2.world) := by
  rw [pause_apply]
  exact h.pause millis p.world

/-- Stopping the workers touches the directories of the fleet alone. -/
theorem spares_stopRoundWorkers (p : Progress σ) :
    Spares (IsFleetName c.settings.roundWorkers) (c.grounds place look p.world)
      (c.grounds place look (p.stopRoundWorkers crew).world) := by
  have hfold : ∀ (workers : List Worker) (q : Progress σ),
      Spares (IsFleetName c.settings.roundWorkers) (c.grounds place look q.world)
        (c.grounds place look (workers.foldl (stop crew) q).world) := by
    intro workers
    induction workers with
    | nil => exact fun q => .refl _ _
    | cons worker rest ih =>
      intro q
      exact (h.terminate worker q.world).trans (ih (q.stop crew worker))
  exact hfold p.roundWorkers { p with roundWorkers := [] }

/-- Launching the monitor touches the directories of the fleet alone. -/
theorem spares_launchMonitor {u : Unit} {p p' : Progress σ}
    (hok : c.launchMonitor crew p = (.ok u, p')) :
    Spares (IsFleetName c.settings.roundWorkers) (c.grounds place look p.world)
      (c.grounds place look p'.world) := by
  obtain ⟨worker, p₁, hlaunch, hok⟩ := bind_eq_ok hok
  obtain ⟨_, p₂, hmodify, hpause⟩ := bind_eq_ok hok
  cases hmodify
  have hfirst := spares_launch h (.inl rfl) p
  have hsecond := spares_pause h c.settings.campaign.staggerMillis 1
    { p₁ with monitor := some worker }
  rw [hlaunch] at hfirst
  rw [hpause] at hsecond
  exact hfirst.trans hsecond

/-- Launching the workers of a round touches the directories of the fleet alone. -/
theorem spares_launchFrom {phase : Phase} {round index count : Nat} (hround : 1 ≤ round)
    (hindex : 1 ≤ index) (hlast : index + count ≤ c.settings.roundWorkers + 1) {u : Unit}
    {p p' : Progress σ} (hok : c.launchFrom crew phase round index count p = (.ok u, p')) :
    Spares (IsFleetName c.settings.roundWorkers) (c.grounds place look p.world)
      (c.grounds place look p'.world) := by
  induction count generalizing index p with
  | zero =>
    cases hok
    exact .refl _ _
  | succ count ih =>
    have hworker : ∀ {p : Progress σ} {u : Unit}, (do
        c.launchWorker crew phase index round
        c.launchFrom crew phase round (index + 1) count : Step σ Unit) p = (.ok u, p') →
        Spares (IsFleetName c.settings.roundWorkers) (c.grounds place look p.world)
          (c.grounds place look p'.world) := by
      intro p u hok
      obtain ⟨_, p₁, hworker, hok⟩ := bind_eq_ok hok
      obtain ⟨worker, p₂, hlaunch, hmodify⟩ := bind_eq_ok hworker
      cases hmodify
      have hfirst := spares_launch h
        (.inr ⟨phase, index, round, ⟨hindex, by omega⟩, hround, rfl⟩) p
      rw [hlaunch] at hfirst
      exact hfirst.trans (ih (p := { p₂ with roundWorkers := p₂.roundWorkers ++ [worker] })
        (Nat.le_add_left 1 index) (by omega) hok)
    rw [launchFrom] at hok
    split at hok
    · obtain ⟨_, p₁, hpause, hok⟩ := bind_eq_ok hok
      have hfirst := spares_pause h c.settings.campaign.staggerMillis round p
      rw [hpause] at hfirst
      exact hfirst.trans (hworker hok)
    · exact hworker hok

/-- While a round is watched, only the fleet writes. -/
theorem spares_watch {round : Nat} (hround : 1 ≤ round) {phase : Phase} {u : Unit}
    {p p' : Progress σ} (hok : c.watch crew round phase p = (.ok u, p')) :
    Spares (IsFleetName c.settings.roundWorkers) (c.grounds place look p.world)
      (c.grounds place look p'.world) := by
  obtain ⟨_, p₁, hlaunch, hok⟩ := bind_eq_ok hok
  obtain ⟨_, p₂, hpause, hstop⟩ := bind_eq_ok hok
  cases hstop
  have hfirst := spares_launchFrom h hround (Nat.le_refl 1) (by omega) hlaunch
  have hsecond := spares_pause h (c.settings.phaseMillis phase) round p₁
  rw [hpause] at hsecond
  exact (hfirst.trans hsecond).trans (spares_stopRoundWorkers h p₂)

/-- A profiling pass writes nothing but what is the fleet's. -/
theorem spares_refresh {isFirst : Bool} {u : Unit} {p p' : Progress σ}
    (hok : c.refresh crew isFirst p = (.ok u, p')) :
    Spares (IsFleetName c.settings.roundWorkers) (c.grounds place look p.world)
      (c.grounds place look p'.world) := by
  rw [refresh_eq] at hok
  obtain ⟨_, p₁, hget, hok⟩ := bind_eq_ok hok
  cases hget
  obtain ⟨⟨seeds, state⟩, p₂, hpick, hok⟩ := bind_eq_ok hok
  obtain ⟨world, hselect, rfl⟩ := orFail_onWorld_ok hpick
  have hworld : p'.world = (crew.profile seeds world).2 := by
    have hview := c.view_profileAndPrune crew { p with world := world }
      (fun _ _ => (rfl : Progress.world _ = _)) (fun _ => .modify rfl) seeds state
    rw [hok, profile_apply] at hview
    exact hview
  have hgrounds := h.profile seeds world
  rwa [grounds, look_selectSeeds h.obeys hselect, ← hworld] at hgrounds

/-! ## What the scheduler does -/

/-- The grounds of a campaign are a tree. -/
theorem isTree_grounds (world : σ) : (c.grounds place look world).IsTree :=
  (h.obeys.isTree world).below _

/-- An item lies below the output directory at its address. -/
theorem place_item (item : Item) (workers : Nat) :
    place (c.settings.layout.pathOf workers item) =
      place c.settings.layout.outDir ++ item.address workers :=
  place_pathOf h.obeys.place_join _ _ _

/-- A fixture lies among the active runs under its name. -/
theorem place_fixture (f : Fixture) : place (c.settings.layout.fixturePath f) =
    place c.settings.layout.outDir ++ ["active_runs", f.name] :=
  place_item h (.fixture f) 0

/-- Creating a fixture opens its directory on the grounds. -/
theorem grounds_createDirectories {f : Fixture} {u : Unit} {w w' : σ}
    (hok : crew.files.createDirectories (c.settings.layout.fixturePath f) w = (.ok u, w')) :
    c.grounds place look w' = (c.grounds place look w).opened ["active_runs", f.name] := by
  rw [grounds, h.obeys.createDirectories _ _ _ _ hok, place_fixture h, opened_below]
  rfl

/-- Writing a fixture puts the text on the grounds. -/
theorem grounds_writeText {f : Fixture} {text : String} {u : Unit} {w w' : σ}
    (hok : crew.files.writeText (c.settings.layout.fixturePath f) text w = (.ok u, w')) :
    c.grounds place look w' =
      (c.grounds place look w).put ["active_runs", f.name] text.toUTF8 := by
  rw [grounds, h.obeys.writeText _ _ _ _ _ hok, place_fixture h, put_below]
  rfl

/-- Cutting the graph writes the files of the plan into the directory of tasks. -/
theorem grounds_partition {u : Unit} {p p' : Progress σ} (hok : c.partition crew p = (.ok u, p')) :
    ∃ plan, (c.cut p.survey.graph).1 = .ok plan ∧
      p'.survey.graph = (c.cut p.survey.graph).2 ∧
      c.grounds place look p'.world = (c.grounds place look p.world).putAll
        ["active_runs", Fixture.tasks.name] (plan.files p'.survey.graph) := by
  cases hcut : (c.cut p.survey.graph).1 with
  | error e =>
    rw [c.partition_apply, hcut] at hok
    cases hok
  | ok plan =>
    have hplace : place c.settings.layout.tasks = _ := place_fixture h .tasks
    rw [c.partition_of_ok crew hcut] at hok
    obtain ⟨paths, p₁, hwrite, hok⟩ := bind_eq_ok hok
    obtain ⟨world, hall, rfl⟩ := orFail_onWorld_ok hwrite
    have htasks := look_writeAll h.obeys hall
    refine ⟨plan, rfl, ?_⟩
    rw [grounds, grounds, ← putAll_below, PartitionPlan.files, putAll_append, ← hplace, ← htasks]
    cases htree : plan.arborescence with
    | none =>
      rw [htree] at hok
      cases hok
      exact ⟨rfl, rfl⟩
    | some tree =>
      rw [htree] at hok
      obtain ⟨world', hone, rfl⟩ := orFail_onWorld_ok hok
      refine ⟨rfl, ?_⟩
      rw [h.obeys.writeText _ _ _ _ _ hone, treeDot,
        h.obeys.place_join _ _ ⟨by decide, by decide, by decide, by decide⟩]
      rfl

/-- The graph of a round is written as a drawing and as a snapshot. -/
theorem grounds_dumpGraph {u : Unit} {p p' : Progress σ} (hok : c.dumpGraph crew p = (.ok u, p')) :
    p'.survey = p.survey ∧ c.grounds place look p'.world =
      ((c.grounds place look p.world).put ["active_runs", Fixture.callGraphDot.name]
        p.survey.graph.toDot.toUTF8).put ["active_runs", Fixture.callGraphJson.name]
        p.survey.graph.snapshot.render.toUTF8 := by
  refine ⟨(c.keeps_dumpGraph crew p inward_survey.world).apply_eq hok, ?_⟩
  obtain ⟨_, p₁, hget, hok⟩ := bind_eq_ok hok
  cases hget
  obtain ⟨_, p₂, hfirst, hok⟩ := bind_eq_ok hok
  obtain ⟨world, hdrawing, rfl⟩ := orFail_onWorld_ok hfirst
  obtain ⟨world', hsnapshot, rfl⟩ := orFail_onWorld_ok hok
  rw [grounds_writeText h (f := .callGraphJson) hsnapshot]
  exact congrArg (View.put · _ _) (grounds_writeText h (f := .callGraphDot) hdrawing)

/-- What the rotation of a round does to the grounds: the backup receives what the round
leaves behind, and nothing else is touched. -/
structure Rotated (round workers : Nat) (u u' : View) : Prop where
  backup : u'.below [(Item.backup round).name workers] =
    (u.below ["active_runs"]).archive ((leavings round workers).map (·.name workers))
  gone : ∀ item ∈ leavings round workers,
    u'.below ["active_runs", item.name workers] = fun _ => none
  stays : ∀ name, name ∉ (leavings round workers).map (·.name workers) →
    u'.below ["active_runs", name] = u.below ["active_runs", name]
  active : u' ["active_runs"] = u ["active_runs"]
  others : ∀ name, name ≠ "active_runs" → name ≠ (Item.backup round).name workers →
    u'.below [name] = u.below [name]

omit h in
/-- A backup does not have the name of the active runs. -/
theorem backup_ne_active (round workers : Nat) :
    (Item.backup round).name workers ≠ "active_runs" := by
  intro heq
  have hhead := congrArg (fun name => name.toList.head?) heq
  simp [Item.name] at hhead

omit h in
/-- The backups of different rounds have different names. -/
theorem backup_name_injective {q r workers : Nat}
    (heq : (Item.backup q).name workers = (Item.backup r).name workers) : q = r :=
  toString_injective (String.append_right_inj _ |>.1 heq)

omit h in
/-- Carrying what a round leaves behind into a new backup is its rotation. -/
theorem rotated_of_carried {round workers : Nat} {u u₁ u' : View} (hu : u.IsTree)
    (hmissing : u [(Item.backup round).name workers] = none)
    (hcreated : u₁ = Function.update u [(Item.backup round).name workers] (some .directory))
    (hcarried : Carried u₁ u' ["active_runs"] [(Item.backup round).name workers]
      ((leavings round workers).map (·.name workers))) : Rotated round workers u u' := by
  set backup := (Item.backup round).name workers
  set names := (leavings round workers).map (·.name workers) with hnames
  have hne : backup ≠ "active_runs" := backup_ne_active round workers
  have hcreated_of_ne : ∀ place, place ≠ [backup] → u₁ place = u place := by
    intro place hplace
    rw [hcreated, Function.update_of_ne hplace]
  refine ⟨?_, ?_, ?_, ?_, ?_⟩
  · funext rest
    cases rest with
    | nil =>
      refine (hcarried.others [backup] (fun name _ => ?_)).trans ?_
      · simp [hne.symm]
      · rw [hcreated, Function.update_self]
        rfl
    | cons name rest =>
      by_cases hname : name ∈ names
      · refine ((hcarried.arrived name hname rest).trans (hcreated_of_ne _ ?_)).trans
          (if_pos hname).symm
        simp
      · refine (hcarried.others _ (fun other hother => ?_)).trans ?_
        · have hother : other ≠ name := ne_of_mem_of_not_mem hother hname
          simp [hother]
        · refine (hcreated_of_ne _ (by simp)).trans ((hu.eq_none hmissing _).trans ?_)
          exact (if_neg hname).symm
  · intro item hitem
    funext rest
    exact hcarried.left _ (List.mem_map_of_mem hitem) rest
  · intro name hname
    funext rest
    refine (hcarried.others _ (fun other hother => ?_)).trans (hcreated_of_ne _ (by simp))
    have hother : other ≠ name := ne_of_mem_of_not_mem hother hname
    simp [hne, hother]
  · refine (hcarried.others _ fun other _ => ?_).trans (hcreated_of_ne _ ?_)
    · simp [hne]
    · simpa using hne.symm
  · intro name hactive hbackup
    funext rest
    refine (hcarried.others _ fun other _ => ?_).trans (hcreated_of_ne _ ?_)
    · have hbackup : backup ≠ name := Ne.symm hbackup
      simp [hactive.symm, hbackup]
    · have hbackup : name ≠ backup := hbackup
      simp [hbackup]

/-- Rotating the artifacts of a round whose backup is not there yet. -/
theorem rotated_of_rotateArtifacts {round : Nat} (hround : 1 ≤ round) {w w' : σ} {path : Path}
    (hactive : c.grounds place look w ["active_runs"] = some .directory)
    (hmissing : c.grounds place look w
      [(Item.backup round).name c.settings.roundWorkers] = none)
    (hok : rotateArtifacts crew.files c.settings.layout round c.settings.roundWorkers w =
      (.ok path, w')) :
    Rotated round c.settings.roundWorkers (c.grounds place look w) (c.grounds place look w') := by
  rw [rotateArtifacts, artifacts_eq_map] at hok
  obtain ⟨_, w₁, hcreate, hok⟩ := bind_eq_ok hok
  obtain ⟨_, w₂, hmoves, hpure⟩ := bind_eq_ok hok
  cases hpure
  set root := place c.settings.layout.outDir with hroot
  set backup := (Item.backup round).name c.settings.roundWorkers
  have hbackup : place (c.settings.layout.backupDir round) = root ++ [backup] :=
    place_item h (.backup round) c.settings.roundWorkers
  have hfleet : place c.settings.layout.activeRuns = root ++ ["active_runs"] :=
    h.obeys.place_join _ _ ⟨by decide, by decide, by decide, by decide⟩
  have htree := h.obeys.isTree w
  -- the backup is created
  have hopened := h.obeys.createDirectories _ _ _ _ (orFail_eq_ok.1 hcreate)
  have hthere : look w (root ++ ["active_runs"]) = some .directory := hactive
  rw [hbackup, htree.opened_child (htree root "active_runs" (by
    rw [hthere]
    exact Option.some_ne_none _)) hmissing] at hopened
  -- what the round leaves behind is carried there
  have hapart : ∀ front back, place c.settings.layout.activeRuns ++ front ≠
      place (c.settings.layout.backupDir round) ++ back := by
    intro front back heq
    rw [hfleet, hbackup, List.append_assoc, List.append_assoc, List.append_cancel_left_eq] at heq
    exact backup_ne_active _ _ (List.cons.inj heq).1.symm
  have hcarried := carried_moveAll h.obeys hapart (fun item => shelf_of_mem_leavings)
    (nodup_name_leavings hround) (fun item _ => ?_) hmoves
  · rw [hfleet, hbackup] at hcarried
    refine rotated_of_carried (isTree_grounds h w) hmissing ?_ hcarried.below
    · funext rest
      rw [below, hopened, Function.update_apply, Function.update_apply]
      simp only [List.append_cancel_left_eq]
      rfl
  · rw [hbackup, hopened, Function.update_of_ne (by simp)]
    exact htree.eq_none hmissing _

end Campaign

end FuzzCampaign
