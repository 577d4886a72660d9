import FuzzCampaign.Proofs.Storage.Views
import Mathlib.Data.List.Dedup

/-!
# A small disk

A file system that obeys its view: a list of places with what is found there, the latest
first, such that only directories have anything below them.

Main definitions:

- `Disk.put`, `Disk.openDirectory` and `Disk.move`: changing what is found on a disk.
- `Disk.files`: the operations of a campaign.

Main results:

- `IsTree.put`, `IsTree.opened` and `IsTree.moved`: when a change leaves a tree.
- `obeys_files`: the operations obey the view.
-/

namespace FuzzCampaign

open FuzzCampaign.Action View

instance : DecidablePred Path.IsName := fun name =>
  decidable_of_iff (name ≠ "" ∧ name ≠ "." ∧ name ≠ ".." ∧ '/' ∉ name.toList)
    ⟨fun ⟨h₁, h₂, h₃, h₄⟩ => ⟨h₁, h₂, h₃, h₄⟩, fun ⟨h₁, h₂, h₃, h₄⟩ => ⟨h₁, h₂, h₃, h₄⟩⟩

namespace View

variable {v : View}

/-! ## Changes that leave a tree -/

/-- A file may be written into a directory, unless there is a directory in its place. -/
theorem IsTree.put (h : v.IsTree) {dir : Place} {name : String} (hdir : v dir = some .directory)
    (hplace : v (dir ++ [name]) ≠ some .directory) (content : ByteArray) :
    (v.put (dir ++ [name]) content).IsTree := by
  intro front last hlast
  have hfront : front ≠ dir ++ [name] := by
    rintro rfl
    rw [put_of_ne (by simp)] at hlast
    exact hplace (h _ _ hlast)
  rw [put_of_ne hfront]
  by_cases hsame : front ++ [last] = dir ++ [name]
  · rwa [(List.append_inj' hsame rfl).1]
  · rw [put_of_ne hsame] at hlast
    exact h _ _ hlast

/-- Directories may be created where there are no files. -/
theorem IsTree.opened (h : v.IsTree) {dir : Place}
    (hfiles : ∀ front, front <+: dir → v front = none ∨ v front = some .directory) :
    (v.opened dir).IsTree := by
  have hopened : ∀ front, front <+: dir → v.opened dir front = some .directory := by
    intro front hfront
    rw [View.opened]
    split
    · rfl
    · next hnot => exact (hfiles front hfront).resolve_left fun hnone => hnot ⟨hfront, hnone⟩
  intro front last hlast
  by_cases hfront : front <+: dir
  · exact hopened front hfront
  · have hmore : ¬ front ++ [last] <+: dir := fun hmore =>
      hfront ((List.prefix_append front [last]).trans hmore)
    rw [View.opened, if_neg fun hboth => hfront hboth.1]
    rw [View.opened, if_neg fun hboth => hmore hboth.1] at hlast
    exact h _ _ hlast

/-- Something may be moved into a directory that is not inside of it. -/
theorem IsTree.moved (h : v.IsTree) {source dir : Place} {name : String}
    (hdir : v dir = some .directory) (hinside : ¬ source <+: dir ++ [name]) :
    (v.moved source (dir ++ [name])).IsTree := by
  intro front last hlast
  by_cases htarget : dir ++ [name] <+: front
  · obtain ⟨rest, rfl⟩ := htarget
    rw [moved_target]
    rw [List.append_assoc (dir ++ [name]), moved_target, ← List.append_assoc] at hlast
    exact h _ _ hlast
  · by_cases hsource : source <+: front
    · have hmore : ¬ dir ++ [name] <+: front ++ [last] := by
        intro hmore
        rcases List.prefix_concat_iff.1 hmore with heq | hfront
        · exact hinside (heq ▸ hsource.trans (List.prefix_append _ _))
        · exact htarget hfront
      rw [View.moved, if_neg hmore, if_pos (hsource.trans (List.prefix_append _ _))] at hlast
      exact absurd rfl hlast
    · rw [moved_other htarget hsource]
      by_cases hsame : dir ++ [name] = front ++ [last]
      · rwa [← (List.append_inj' hsame rfl).1]
      · have hmore : ¬ dir ++ [name] <+: front ++ [last] := fun hmore =>
          (List.prefix_concat_iff.1 hmore).elim hsame htarget
        by_cases hover : source <+: front ++ [last]
        · rw [View.moved, if_neg hmore, if_pos hover] at hlast
          exact absurd rfl hlast
        · rw [moved_other hmore hover] at hlast
          exact h _ _ hlast

end View

/-! ## Disks -/

/-- Places with what is found there, all of them in directories.  Of several entries for a
place the first one counts. -/
structure Disk where
  entries : List (Place × Entry)
  isTree : View.IsTree fun place => entries.lookup place

namespace Disk

/-- What is found on a disk. -/
def look (d : Disk) : View := fun place => d.entries.lookup place

/-- What is found at a place is one of the entries. -/
theorem mem_entries {d : Disk} {place : Place} {entry : Entry} (h : d.look place = some entry) :
    (place, entry) ∈ d.entries := by
  obtain ⟨front, back, hentries, -⟩ := List.lookup_eq_some_iff.1 h
  rw [hentries]
  simp

/-- The latest entry of a place is found first. -/
theorem lookup_cons_place {key place : Place} {entry : Entry} {rest : List (Place × Entry)} :
    List.lookup place ((key, entry) :: rest) =
      if place = key then some entry else rest.lookup place := by
  rw [List.lookup_cons]
  by_cases hplace : place = key
  · simp [hplace]
  · simp [hplace, beq_false_of_ne hplace]

/-- Entries make a disk if each of them is in a directory. -/
theorem isTree_of_forall {entries : List (Place × Entry)}
    (h : ∀ entry ∈ entries, entry.1 = [] ∨ entries.lookup entry.1.dropLast = some .directory) :
    View.IsTree fun place => entries.lookup place := by
  intro dir name hname
  obtain ⟨entry, hentry⟩ := Option.ne_none_iff_exists'.1 hname
  obtain ⟨front, back, hsplit, -⟩ := List.lookup_eq_some_iff.1 hentry
  have hmem : (dir ++ [name], entry) ∈ entries := by
    rw [hsplit]
    simp
  rcases h _ hmem with hroot | hdir
  · simp at hroot
  · simpa using hdir

/-! ### Writing files -/

/-- An entry in front of the others, as a written file. -/
theorem lookup_cons_eq_put (d : Disk) (place : Place) (content : ByteArray) :
    (fun other => ((place, Entry.file content) :: d.entries).lookup other) =
      d.look.put place content := by
  funext other
  rw [View.put, Function.update_apply, lookup_cons_place]
  rfl

/-- A file in a directory leaves a tree. -/
theorem isTree_put {d : Disk} {place : Place} (h : place ≠ [] ∧
    d.look place.dropLast = some .directory ∧ d.look place ≠ some .directory)
    (content : ByteArray) : View.IsTree fun other =>
      ((place, Entry.file content) :: d.entries).lookup other := by
  rw [lookup_cons_eq_put]
  obtain ⟨hne, hdir, hplace⟩ := h
  obtain rfl | ⟨dir, name, rfl⟩ := List.eq_nil_or_concat' place
  · exact absurd rfl hne
  · rw [List.dropLast_concat] at hdir
    exact IsTree.put d.isTree hdir hplace content

/-- Write a file into a directory, unless there is a directory in its place. -/
def put (place : Place) (content : ByteArray) : Action Disk Fault Unit := fun d =>
  if h : place ≠ [] ∧ d.look place.dropLast = some .directory ∧
      d.look place ≠ some .directory then
    (.ok (), ⟨(place, .file content) :: d.entries, isTree_put h content⟩)
  else (.error .notFound, d)

/-- A write that succeeds puts the content at the place. -/
theorem look_put {place : Place} {content : ByteArray} {d d' : Disk} {u : Unit}
    (hok : put place content d = (.ok u, d')) : d'.look = d.look.put place content := by
  rw [put] at hok
  split at hok
  · cases hok
    exact lookup_cons_eq_put d place content
  · cases hok

/-- Writing a file does what it says, or nothing. -/
theorem look_put_snd (place : Place) (content : ByteArray) (d : Disk) :
    (put place content d).2.look = d.look.put place content ∨ (put place content d).2 = d := by
  cases hput : put place content d with
  | mk answer d' =>
    cases answer with
    | ok u => exact .inl (look_put hput)
    | error e =>
      rw [put] at hput
      split at hput <;> cases hput
      exact .inr rfl

/-- Copy a file. -/
def copy (source target : Place) : Action Disk Fault Unit := fun d =>
  match d.look source with
  | some (.file content) => put target content d
  | some .directory => (.error .isDirectory, d)
  | none => (.error .notFound, d)

/-- A copy that succeeds puts the content of the source at the target. -/
theorem look_copy {source target : Place} {d d' : Disk} {u : Unit}
    (hok : copy source target d = (.ok u, d')) :
    ∃ content, d.look source = some (.file content) ∧ d'.look = d.look.put target content := by
  rw [copy] at hok
  split at hok
  · next content hsource => exact ⟨content, hsource, look_put hok⟩
  · cases hok
  · cases hok

/-! ### Creating directories -/

/-- The directories that are missing above a place and there. -/
def missing (d : Disk) (place : Place) : List (Place × Entry) :=
  (place.inits.filter fun front => decide (d.look front = none)).map (·, .directory)

/-- The missing directories in front of the others, as an opened directory. -/
theorem lookup_missing (d : Disk) (place : Place) :
    (fun other => (d.missing place ++ d.entries).lookup other) = d.look.opened place := by
  have hmap : ∀ (fronts : List Place) (other : Place),
      (fronts.map (·, Entry.directory)).lookup other =
        if other ∈ fronts then some .directory else none := by
    intro fronts other
    induction fronts with
    | nil => rfl
    | cons front rest ih =>
      rw [List.map_cons, lookup_cons_place, ih]
      by_cases hother : other = front <;> simp [hother]
  funext other
  rw [List.lookup_append, missing, hmap, View.opened]
  simp only [List.mem_filter, List.mem_inits, decide_eq_true_iff]
  split
  · rfl
  · rw [Option.none_or, look]

/-- Missing directories below directories leave a tree. -/
theorem isTree_missing {d : Disk} {place : Place} (h : ∀ front ∈ place.inits,
    d.look front = none ∨ d.look front = some .directory) :
    View.IsTree fun other => (d.missing place ++ d.entries).lookup other := by
  rw [lookup_missing]
  exact IsTree.opened d.isTree fun front hfront => h front ((List.mem_inits _ _).2 hfront)

/-- Create a directory and all directories above it that are missing. -/
def openDirectory (place : Place) : Action Disk Fault Unit := fun d =>
  if h : ∀ front ∈ place.inits, d.look front = none ∨ d.look front = some .directory then
    (.ok (), ⟨d.missing place ++ d.entries, isTree_missing h⟩)
  else (.error .notDirectory, d)

/-- A directory that is opened is there with all above it. -/
theorem look_openDirectory {place : Place} {d d' : Disk} {u : Unit}
    (hok : openDirectory place d = (.ok u, d')) : d'.look = d.look.opened place := by
  rw [openDirectory] at hok
  split at hok
  · cases hok
    exact lookup_missing d place
  · cases hok

/-- Creating a directory does what it says, or nothing. -/
theorem look_openDirectory_snd (place : Place) (d : Disk) :
    (openDirectory place d).2.look = d.look.opened place ∨ (openDirectory place d).2 = d := by
  cases hopen : openDirectory place d with
  | mk answer d' =>
    cases answer with
    | ok u => exact .inl (look_openDirectory hopen)
    | error e =>
      rw [openDirectory] at hopen
      split at hopen <;> cases hopen
      exact .inr rfl

/-! ### Moving things -/

/-- Where an entry is found after something was moved. -/
def carry (source target : Place) (entry : Place × Entry) : Place × Entry :=
  if source <+: entry.1 then (target ++ entry.1.drop source.length, entry.2) else entry

/-- Entries that are carried from one place to another, as a move. -/
theorem lookup_map_carry {source target : Place} {entries : List (Place × Entry)}
    (hnew : ∀ entry ∈ entries, ¬ target <+: entry.1) (place : Place) :
    (entries.map (carry source target)).lookup place =
      View.moved (fun other => entries.lookup other) source target place := by
  induction entries with
  | nil => simp [View.moved]
  | cons entry rest ih =>
    obtain ⟨hentry, hrest⟩ := List.forall_mem_cons.1 hnew
    obtain ⟨key, value⟩ := entry
    rw [List.map_cons, carry]
    by_cases hkey : source <+: key
    · obtain ⟨back, rfl⟩ := hkey
      rw [if_pos (List.prefix_append _ _), List.drop_left, lookup_cons_place, ih hrest]
      by_cases htarget : target <+: place
      · obtain ⟨front, rfl⟩ := htarget
        rw [View.moved_target, View.moved_target, lookup_cons_place]
        simp only [List.append_cancel_left_eq]
      · have hne : place ≠ target ++ back := fun heq => htarget (heq ▸ List.prefix_append _ _)
        rw [if_neg hne, View.moved, View.moved, if_neg htarget, if_neg htarget]
        by_cases hsource : source <+: place
        · rw [if_pos hsource, if_pos hsource]
        · have hother : place ≠ source ++ back := fun heq =>
            hsource (heq ▸ List.prefix_append _ _)
          rw [if_neg hsource, if_neg hsource, lookup_cons_place, if_neg hother]
    · rw [if_neg hkey, lookup_cons_place, ih hrest]
      by_cases htarget : target <+: place
      · obtain ⟨front, rfl⟩ := htarget
        have hne : target ++ front ≠ key := fun heq => hentry (heq ▸ List.prefix_append _ _)
        have hother : source ++ front ≠ key := fun heq => hkey (heq ▸ List.prefix_append _ _)
        rw [View.moved_target, View.moved_target, lookup_cons_place, if_neg hne, if_neg hother]
      · rw [View.moved, View.moved, if_neg htarget, if_neg htarget]
        by_cases hsource : source <+: place
        · have hne : place ≠ key := fun heq => hkey (heq ▸ hsource)
          rw [if_pos hsource, if_pos hsource, if_neg hne]
        · rw [if_neg hsource, if_neg hsource, lookup_cons_place]

/-- Something may be moved to a new place in a directory that is not inside of it. -/
def Movable (d : Disk) (source target : Place) : Prop :=
  target ≠ [] ∧ d.look target.dropLast = some .directory ∧ d.look target = none ∧
    ¬ source <+: target

instance (d : Disk) (source target : Place) : Decidable (d.Movable source target) :=
  inferInstanceAs (Decidable (_ ∧ _ ∧ _ ∧ _))

/-- Carrying the entries of a disk is moving what it shows. -/
theorem lookup_carry {d : Disk} {source target : Place} (h : d.Movable source target) :
    (fun other => (d.entries.map (carry source target)).lookup other) =
      d.look.moved source target := by
  funext other
  refine lookup_map_carry ?_ other
  rintro ⟨key, value⟩ hentry ⟨rest, rfl⟩
  have hnone := IsTree.eq_none d.isTree h.2.2.1 rest
  simpa using List.lookup_eq_none_iff.1 hnone _ hentry

/-- Carrying entries to a free place leaves a tree. -/
theorem isTree_carry {d : Disk} {source target : Place} (h : d.Movable source target) :
    View.IsTree fun other => (d.entries.map (carry source target)).lookup other := by
  rw [lookup_carry h]
  obtain ⟨hne, hdir, -, hinside⟩ := h
  obtain rfl | ⟨dir, name, rfl⟩ := List.eq_nil_or_concat' target
  · exact absurd rfl hne
  · rw [List.dropLast_concat] at hdir
    exact IsTree.moved d.isTree hdir hinside

/-- Move something that is there to a new place. -/
def move (source target : Place) : Action Disk Fault Unit := fun d =>
  if d.look source = none then (.error .notFound, d)
  else if h : d.Movable source target then
    (.ok (), ⟨d.entries.map (carry source target), isTree_carry h⟩)
  else (.error .alreadyExists, d)

/-- A move that succeeds moves what the disk shows. -/
theorem look_move {source target : Place} {d d' : Disk} {u : Unit}
    (hok : move source target d = (.ok u, d')) : d'.look = d.look.moved source target := by
  rw [move] at hok
  split at hok
  · cases hok
  · split at hok
    · next h =>
      cases hok
      exact lookup_carry h
    · cases hok

/-! ### Listing directories -/

/-- Whether there is a file at a place. -/
def hasFileAt (d : Disk) (place : Place) : Bool :=
  match d.look place with
  | some (.file _) => true
  | _ => false

/-- A file is at a place when the disk shows one there. -/
theorem hasFileAt_iff {d : Disk} {place : Place} :
    d.hasFileAt place = true ↔ ∃ content, d.look place = some (.file content) := by
  rw [hasFileAt]
  split
  · next content heq => exact iff_of_true rfl ⟨content, heq⟩
  · next hnone => exact iff_of_false Bool.false_ne_true fun ⟨content, heq⟩ => hnone content heq

/-- The names of whatever is in a directory. -/
def entryNames (dir : Place) : Action Disk Fault (List String) := fun d =>
  if d.look dir = some .directory then
    let found := d.entries.filter fun entry => entry.1.dropLast == dir
    (.ok ((found.filterMap fun entry => entry.1.getLast?).dedup.filter (Path.IsName ·)), d)
  else (.error .notDirectory, d)

/-- A directory lists every name in it once. -/
theorem mem_entryNames {dir : Place} {names : List String} {d d' : Disk}
    (hok : entryNames dir d = (.ok names, d')) : d' = d ∧ names.Nodup ∧
      ∀ name, name ∈ names ↔ Path.IsName name ∧ d.look (dir ++ [name]) ≠ none := by
  rw [entryNames] at hok
  split at hok
  · cases hok
    refine ⟨rfl, (List.nodup_dedup _).filter _, ?_⟩
    intro name
    rw [List.mem_filter, List.mem_dedup, List.mem_filterMap, decide_eq_true_iff, and_comm]
    refine and_congr_right fun _ => ?_
    constructor
    · rintro ⟨⟨place, entry⟩, hmem, hlast⟩ hnone
      rw [List.mem_filter, beq_iff_eq] at hmem
      obtain ⟨hentry, rfl⟩ := hmem
      rw [List.dropLast_append_getLast? name hlast] at hnone
      simpa using List.lookup_eq_none_iff.1 hnone _ hentry
    · intro hthere
      obtain ⟨entry, hentry⟩ := Option.ne_none_iff_exists'.1 hthere
      refine ⟨_, List.mem_filter.2 ⟨mem_entries hentry, ?_⟩, List.getLast?_concat⟩
      simp
  · cases hok

/-! ### The operations of a campaign -/

/-- The operations of a campaign on a disk. -/
def files : FileSystem Disk where
  isDirectory p d := decide (d.look p.steps = some .directory)
  isFile p d := d.hasFileAt p.steps
  isPresent p d := decide (d.look p.steps ≠ none)
  entryNames p := entryNames p.steps
  createDirectories p := openDirectory p.steps
  copy source target := copy source.steps target.steps
  move source target := move source.steps target.steps
  writeText p text := put p.steps text.toUTF8
  readText _ d := (.error .invalidText, d)

/-- The operations of a disk do what is asked of those of a file system. -/
theorem obeys_files : files.Obeys Path.steps look where
  place_join p _ h := p.steps_join h
  isTree d := d.isTree
  isDirectory_iff _ _ := decide_eq_true_iff
  isFile_iff _ _ := hasFileAt_iff
  isPresent_iff _ _ := decide_eq_true_iff
  entryNames _ d _ d' h := by
    obtain ⟨rfl, hnodup, hmem⟩ := mem_entryNames h
    exact ⟨rfl, hnodup, hmem⟩
  createDirectories _ _ _ _ h := look_openDirectory h
  copy _ _ _ _ _ _ h := look_copy h
  move _ _ _ _ _ h := look_move h
  writeText _ _ _ _ _ h := look_put h

end Disk

end FuzzCampaign
