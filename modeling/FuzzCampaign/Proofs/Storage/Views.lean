import FuzzCampaign.Proofs.Campaign.Transcript
import FuzzCampaign.Proofs.Fleet.Addresses
import FuzzCampaign.Proofs.Text.Cutting
import Mathlib

/-!
# What a file system shows

A view of a file system tells what is found at every place.  A file system obeys a view if
each operation that succeeds does to the view what it says: it reads what is shown, writes
one file, creates missing directories, or moves a file or a directory with all that is below
it.  Nothing is said of operations that fail.

Main definitions:

- `View.below`: what is found below a place.
- `View.folder`: a directory with some files and nothing else.
- `View.putAll`: writing files into a directory.
- `FileSystem.Obeys`: the laws of a file system with a view.

Main results:

- `View.below_putAll`: a folder that was written to.
- `look_copyAll`, `look_writeAll` and `carried_moveAll`: what copying seeds, writing tasks and
  moving items does.
-/

namespace FuzzCampaign

open FuzzCampaign.Action FuzzCampaign.Path

/-! ## Views -/

/-- What is found at a place. -/
inductive Entry where
  | directory
  | file (content : ByteArray)
  deriving DecidableEq

/-- What is found at every place, if anything is. -/
abbrev View := Place → Option Entry

namespace View

/-- What is found below a place. -/
def below (v : View) (dir : Place) : View := fun rest => v (dir ++ rest)

/-- A directory with some files and nothing else in it. -/
def folder (files : List (String × ByteArray)) : View
  | [] => some .directory
  | [name] => (files.lookup name).map .file
  | _ => none

/-- A directory in which there is a file of some name. -/
def HasFile (v : View) (dir : Place) (name : String) (content : ByteArray) : Prop :=
  IsName name ∧ v (dir ++ [name]) = some (.file content)

/-- A directory with what is found in another one under certain names. -/
def archive (v : View) (names : List String) : View
  | [] => some .directory
  | name :: rest => if name ∈ names then v (name :: rest) else none

/-- Write a file. -/
def put (v : View) (place : Place) (content : ByteArray) : View :=
  Function.update v place (some (.file content))

/-- Write files into a directory. -/
def putAll (v : View) (dir : Place) (files : List (String × ByteArray)) : View :=
  files.foldl (fun v file => v.put (dir ++ [file.1]) file.2) v

/-- Create a directory and all directories above it that are missing. -/
def opened (v : View) (dir : Place) : View := fun place =>
  if place <+: dir ∧ v place = none then some .directory else v place

/-- Move something with all that is below it. -/
def moved (v : View) (source target : Place) : View := fun place =>
  if target <+: place then v (source ++ place.drop target.length)
  else if source <+: place then none
  else v place

/-- Looking below twice is looking below the joined place. -/
theorem below_below (v : View) (dir rest : Place) :
    (v.below dir).below rest = v.below (dir ++ rest) := by
  funext place
  rw [below, below, below, List.append_assoc]

/-- In a tree, only directories have anything below them. -/
def IsTree (v : View) : Prop :=
  ∀ dir name, v (dir ++ [name]) ≠ none → v dir = some .directory

variable {v : View} {dir place : Place}

/-- Below a place where nothing is there is nothing. -/
theorem IsTree.eq_none (h : v.IsTree) (hdir : v dir = none) (rest : Place) :
    v (dir ++ rest) = none := by
  induction rest using List.reverseRecOn with
  | nil => rwa [List.append_nil]
  | append_singleton rest name ih =>
    by_contra hne
    rw [← List.append_assoc] at hne
    rw [h _ _ hne] at ih
    cases ih

/-- A directory that is there need not be created. -/
theorem IsTree.opened_eq (h : v.IsTree) (hdir : v dir ≠ none) : v.opened dir = v := by
  funext place
  refine if_neg ?_
  rintro ⟨⟨rest, rfl⟩, hnone⟩
  exact hdir (h.eq_none hnone rest)

/-- A missing directory inside another one is created there. -/
theorem IsTree.opened_child (h : v.IsTree) (hdir : v dir = some .directory) {name : String}
    (hname : v (dir ++ [name]) = none) :
    v.opened (dir ++ [name]) = Function.update v (dir ++ [name]) (some .directory) := by
  funext place
  by_cases hplace : place = dir ++ [name]
  · rw [hplace, Function.update_self]
    exact if_pos ⟨List.prefix_rfl, hname⟩
  · rw [Function.update_of_ne hplace]
    refine if_neg ?_
    rintro ⟨hbehind, hnone⟩
    rcases List.prefix_concat_iff.1 hbehind with rfl | ⟨rest, rfl⟩
    · exact hplace rfl
    · rw [h.eq_none hnone rest] at hdir
      cases hdir

/-- Creating directories makes no files. -/
theorem opened_eq_file {content : ByteArray} {target : Place} :
    v.opened target place = some (.file content) ↔ v place = some (.file content) := by
  rw [opened]
  split
  · next h => simp [h.2]
  · rfl

/-- Opening a directory gives no file and takes none. -/
theorem hasFile_opened {target : Place} {name : String} {content : ByteArray} :
    (v.opened target).HasFile dir name content ↔ v.HasFile dir name content := by
  rw [HasFile, HasFile, opened_eq_file]

/-- A file is in a directory. -/
theorem HasFile.eq_directory (h : v.IsTree) {name : String} {content : ByteArray}
    (hfile : v.HasFile dir name content) : v dir = some .directory :=
  h dir name (by rw [hfile.2]; exact Option.some_ne_none _)

/-! ### Writing files -/

/-- A written file changes nothing elsewhere. -/
theorem put_of_ne {content : ByteArray} {target : Place} (h : place ≠ target) :
    v.put target content place = v place :=
  Function.update_of_ne h _ _

/-- Writing files into a directory changes nothing else. -/
theorem putAll_of_ne {files : List (String × ByteArray)}
    (h : ∀ name, place ≠ dir ++ [name]) : v.putAll dir files place = v place := by
  induction files generalizing v with
  | nil => rfl
  | cons file files ih => exact (ih (v := v.put _ _)).trans (put_of_ne (h file.1))

/-- Files put one after the other are the files of the joined list. -/
theorem putAll_append (files more : List (String × ByteArray)) :
    v.putAll dir (files ++ more) = (v.putAll dir files).putAll dir more :=
  List.foldl_append

/-- A directory looks like a folder when it holds exactly the listed files and nothing deeper. -/
theorem below_eq_folder_iff {files : List (String × ByteArray)} : v.below dir = folder files ↔
    v dir = some .directory ∧ (∀ name, v (dir ++ [name]) = (files.lookup name).map .file) ∧
      ∀ name next rest, v (dir ++ name :: next :: rest) = none := by
  constructor
  · intro h
    refine ⟨?_, fun name => congrFun h [name], fun name next rest => congrFun h _⟩
    rw [← List.append_nil dir]
    exact congrFun h []
  · rintro ⟨hdir, hfile, hnone⟩
    funext rest
    match rest with
    | [] => exact (congrArg v (List.append_nil dir)).trans hdir
    | [name] => exact hfile name
    | name :: next :: rest => exact hnone name next rest

/-- A folder that a file of a new name was written to. -/
theorem below_put {files : List (String × ByteArray)} (h : v.below dir = folder files)
    {name : String} (content : ByteArray) (hnew : files.lookup name = none) :
    (v.put (dir ++ [name]) content).below dir = folder (files ++ [(name, content)]) := by
  obtain ⟨hdir, hfile, hnone⟩ := below_eq_folder_iff.1 h
  refine below_eq_folder_iff.2 ⟨?_, ?_, ?_⟩
  · rwa [put_of_ne (by simp)]
  · intro other
    rw [List.lookup_append]
    by_cases hother : other = name
    · rw [hother, hnew, put, Function.update_self]
      simp
    · rw [put_of_ne (by simpa using hother), hfile]
      simp [List.lookup_cons, beq_false_of_ne hother]
  · intro other next rest
    rw [put_of_ne (by simp), hnone]

/-- A name that is not listed is not found. -/
theorem lookup_eq_none_of_not_mem {files : List (String × ByteArray)} {name : String}
    (h : name ∉ files.map Prod.fst) : files.lookup name = none := by
  rw [List.lookup_eq_none_iff]
  intro file hfile
  rw [bne_iff_ne]
  rintro rfl
  exact h (List.mem_map_of_mem hfile)

/-- A folder that files of new names were written to. -/
theorem below_putAll {earlier files : List (String × ByteArray)}
    (h : v.below dir = folder earlier) (hnew : ((earlier ++ files).map Prod.fst).Nodup) :
    (v.putAll dir files).below dir = folder (earlier ++ files) := by
  induction files generalizing v earlier with
  | nil => rwa [List.append_nil]
  | cons file files ih =>
    have hfile : file.1 ∉ earlier.map Prod.fst := by
      rw [List.map_append, List.map_cons, List.nodup_append] at hnew
      exact fun hmem => hnew.2.2 _ hmem _ List.mem_cons_self rfl
    have hput := below_put h file.2 (lookup_eq_none_of_not_mem hfile)
    rw [List.append_cons]
    exact ih hput (by rwa [← List.append_cons])

/-- A directory that is missing or empty is there and empty once it was created. -/
theorem IsTree.below_opened (h : v.IsTree) (hempty : v.below dir = folder [] ∨ v dir = none) :
    (v.opened dir).below dir = folder [] := by
  rcases hempty with hfolder | hnone
  · have hthere : v dir ≠ none := by
      rw [(below_eq_folder_iff.1 hfolder).1]
      exact Option.some_ne_none _
    rwa [h.opened_eq hthere]
  · have hbelow : ∀ name rest, v.opened dir (dir ++ name :: rest) = none := by
      intro name rest
      have hlonger : ¬ dir ++ name :: rest <+: dir := fun h => by simpa using h.length_le
      rw [opened, if_neg fun hboth => hlonger hboth.1]
      exact h.eq_none hnone _
    exact below_eq_folder_iff.2 ⟨if_pos ⟨List.prefix_rfl, hnone⟩, fun name => hbelow name [],
      fun name next rest => hbelow name (next :: rest)⟩

/-! ### From a place on -/

/-- What lies below a place of a tree is a tree. -/
theorem IsTree.below (h : v.IsTree) (root : Place) : (v.below root).IsTree := by
  intro dir name hname
  rw [View.below, ← List.append_assoc] at hname
  exact h _ _ hname

/-- Opening below a root, seen from the root. -/
theorem opened_below (v : View) (root dir : Place) :
    (v.opened (root ++ dir)).below root = (v.below root).opened dir := by
  funext place
  simp only [below, opened, List.prefix_append_right_inj]
  congr

/-- Writing below a root, seen from the root. -/
theorem put_below (v : View) (root dir : Place) (content : ByteArray) :
    (v.put (root ++ dir) content).below root = (v.below root).put dir content := by
  funext place
  rw [below, put, put, Function.update_apply, Function.update_apply]
  simp only [List.append_cancel_left_eq]
  rfl

/-- Putting files below a root, seen from the root. -/
theorem putAll_below (v : View) (root dir : Place) (files : List (String × ByteArray)) :
    (v.putAll (root ++ dir) files).below root = (v.below root).putAll dir files := by
  induction files generalizing v with
  | nil => rfl
  | cons file files ih =>
    rw [putAll, List.foldl_cons, List.append_assoc]
    refine (ih (v.put _ _)).trans ?_
    rw [put_below]
    rfl

/-- Having a file below a root, seen from the root. -/
theorem hasFile_below {root : Place} {name : String} {content : ByteArray} :
    (v.below root).HasFile dir name content ↔ v.HasFile (root ++ dir) name content := by
  rw [HasFile, HasFile, below, List.append_assoc]

/-- Directories that look the same below have the same files. -/
theorem hasFile_congr {v' : View} (h : v'.below dir = v.below dir) {name : String}
    {content : ByteArray} : v'.HasFile dir name content ↔ v.HasFile dir name content := by
  rw [HasFile, HasFile, show v' (dir ++ [name]) = v (dir ++ [name]) from congrFun h [name]]

/-! ### Moving things -/

/-- After a move the target holds what the source held. -/
theorem moved_target (v : View) (source target rest : Place) :
    v.moved source target (target ++ rest) = v (source ++ rest) := by
  rw [moved, if_pos (List.prefix_append _ _), List.drop_left]

/-- After a move nothing is left at the source. -/
theorem moved_source {source target rest : Place} (h : ¬ target <+: source ++ rest) :
    v.moved source target (source ++ rest) = none := by
  rw [moved, if_neg h, if_pos (List.prefix_append _ _)]

/-- A move changes nothing away from its source and its target. -/
theorem moved_other {source target : Place} (htarget : ¬ target <+: place)
    (hsource : ¬ source <+: place) : v.moved source target place = v place := by
  rw [moved, if_neg htarget, if_neg hsource]

/-- Things of certain names were carried from one directory into another, with all that is
below them, and nothing else was touched. -/
structure Carried (v v' : View) (source target : Place) (names : List String) : Prop where
  arrived : ∀ name ∈ names, ∀ rest, v' (target ++ name :: rest) = v (source ++ name :: rest)
  left : ∀ name ∈ names, ∀ rest, v' (source ++ name :: rest) = none
  others : ∀ place, (∀ name ∈ names, ¬ source ++ [name] <+: place ∧ ¬ target ++ [name] <+: place) →
    v' place = v place

/-- The same from a place on. -/
theorem Carried.below {v' : View} {root source target : Place} {names : List String}
    (h : Carried v v' (root ++ source) (root ++ target) names) :
    Carried (v.below root) (v'.below root) source target names := by
  refine ⟨?_, ?_, ?_⟩
  · intro name hname rest
    simpa only [View.below, List.append_assoc] using h.arrived name hname rest
  · intro name hname rest
    simpa only [View.below, List.append_assoc] using h.left name hname rest
  · intro place hplace
    refine h.others _ ?_
    simpa only [List.append_assoc, List.prefix_append_right_inj] using hplace

/-- A name leads towards a place when it is the first name on the way. -/
theorem prefix_append_cons {dir rest : Place} {name other : String} :
    dir ++ [name] <+: dir ++ other :: rest ↔ name = other := by
  rw [List.prefix_append_right_inj, List.cons_prefix_cons]
  exact and_iff_left List.nil_prefix

/-- What is not there need not be carried. -/
theorem carried_of_eq_none {source target : Place} (hv : v.IsTree) {name : String}
    (hsource : v (source ++ [name]) = none) (htarget : v (target ++ [name]) = none) :
    Carried v v source target [name] := by
  refine ⟨?_, ?_, fun _ _ => rfl⟩
  · rintro _ (_ | ⟨_, ⟨⟩⟩) rest
    rw [List.append_cons target name rest, List.append_cons source name rest,
      hv.eq_none htarget, hv.eq_none hsource]
  · rintro _ (_ | ⟨_, ⟨⟩⟩) rest
    rw [List.append_cons source name rest, hv.eq_none hsource]

section

variable {v' v'' : View} {source target : Place}
  (hapart : ∀ front back, source ++ front ≠ target ++ back)

include hapart

/-- A thing that is there is carried by moving it. -/
theorem carried_moved (name : String) :
    Carried v (v.moved (source ++ [name]) (target ++ [name])) source target [name] := by
  refine ⟨?_, ?_, ?_⟩
  · rintro _ (_ | ⟨_, ⟨⟩⟩) rest
    have hmoved := moved_target v (source ++ [name]) (target ++ [name]) rest
    simpa only [List.append_assoc, List.singleton_append] using hmoved
  · rintro _ (_ | ⟨_, ⟨⟩⟩) rest
    rw [List.append_cons source name rest]
    refine moved_source ?_
    rintro ⟨back, hback⟩
    rw [List.append_assoc, List.append_assoc] at hback
    exact hapart _ _ hback.symm
  · intro place hplace
    obtain ⟨hsource, htarget⟩ := hplace name List.mem_cons_self
    exact moved_other htarget hsource

/-- Things are carried one after the other. -/
theorem Carried.cons {name : String} {names : List String} (hnew : name ∉ names)
    (h : Carried v v' source target [name]) (h' : Carried v' v'' source target names) :
    Carried v v'' source target (name :: names) := by
  have hcross : ∀ (name : String) front, ¬ source ++ [name] <+: target ++ front := by
    rintro name front ⟨back, hback⟩
    rw [List.append_assoc] at hback
    exact hapart _ _ hback
  have hcross' : ∀ (name : String) front, ¬ target ++ [name] <+: source ++ front := by
    rintro name front ⟨back, hback⟩
    rw [List.append_assoc] at hback
    exact hapart _ _ hback.symm
  -- what is below one name does not change with the others
  have hlater : ∀ rest, v'' (target ++ name :: rest) = v' (target ++ name :: rest) ∧
      v'' (source ++ name :: rest) = v' (source ++ name :: rest) := by
    intro rest
    refine ⟨h'.others _ ?_, h'.others _ ?_⟩
    · intro other hother
      exact ⟨hcross _ _, fun hbehind => hnew (prefix_append_cons.1 hbehind ▸ hother)⟩
    · intro other hother
      exact ⟨fun hbehind => hnew (prefix_append_cons.1 hbehind ▸ hother), hcross' _ _⟩
  have hearlier : ∀ other ∈ names, ∀ rest,
      v' (source ++ other :: rest) = v (source ++ other :: rest) := by
    intro other hother rest
    refine h.others _ ?_
    rintro _ (_ | ⟨_, ⟨⟩⟩)
    exact ⟨fun hbehind => hnew (prefix_append_cons.1 hbehind ▸ hother), hcross' _ _⟩
  refine ⟨?_, ?_, ?_⟩
  · rintro other hother rest
    rcases List.mem_cons.1 hother with rfl | hother
    · exact (hlater rest).1.trans (h.arrived _ List.mem_cons_self rest)
    · exact (h'.arrived other hother rest).trans (hearlier other hother rest)
  · rintro other hother rest
    rcases List.mem_cons.1 hother with rfl | hother
    · exact (hlater rest).2.trans (h.left _ List.mem_cons_self rest)
    · exact h'.left other hother rest
  · intro place hplace
    obtain ⟨hfirst, hrest⟩ := List.forall_mem_cons.1 hplace
    refine (h'.others place hrest).trans (h.others place ?_)
    rintro _ (_ | ⟨_, ⟨⟩⟩)
    exact hfirst

end

end View

open View

/-! ## File systems with a view -/

/-- Sorted names without repetition are in strictly ascending order. -/
theorem pairwise_lt_mergeSort {names : List String} (h : names.Nodup) :
    (names.mergeSort fun a b => decide (a ≤ b)).Pairwise (· < ·) := by
  have hle : (names.mergeSort fun a b => decide (a ≤ b)).Pairwise (· ≤ ·) := by
    have hsorted : (names.mergeSort fun a b => decide (a ≤ b)).Pairwise
        fun a b => decide (a ≤ b) = true := by
      refine List.pairwise_mergeSort ?_ ?_ names
      · intro a b c hab hbc
        exact decide_eq_true ((of_decide_eq_true hab).trans (of_decide_eq_true hbc))
      · intro a b
        simpa using le_total a b
    exact hsorted.imp of_decide_eq_true
  have hne : (names.mergeSort fun a b => decide (a ≤ b)).Pairwise (· ≠ ·) :=
    (List.mergeSort_perm names _).nodup_iff.2 h
  exact (hle.and hne).imp fun hab => lt_of_le_of_ne hab.1 hab.2

variable {σ : Type}

/-- A file system obeys a view of it, for paths that lead to certain places: what an
operation does to the view if it succeeds. -/
structure FileSystem.Obeys (files : FileSystem σ) (place : Path → Place) (look : σ → View) :
    Prop where
  place_join : ∀ (p : Path) (name : String), IsName name → place (p.join name) = place p ++ [name]
  isTree : ∀ w, (look w).IsTree
  isDirectory_iff : ∀ p w, files.isDirectory p w = true ↔ look w (place p) = some .directory
  isFile_iff : ∀ p w, files.isFile p w = true ↔ ∃ content, look w (place p) = some (.file content)
  isPresent_iff : ∀ p w, files.isPresent p w = true ↔ look w (place p) ≠ none
  entryNames : ∀ p w names w', files.entryNames p w = (.ok names, w') →
    look w' = look w ∧ names.Nodup ∧
      ∀ name, name ∈ names ↔ IsName name ∧ look w (place p ++ [name]) ≠ none
  createDirectories : ∀ p w u w', files.createDirectories p w = (.ok u, w') →
    look w' = (look w).opened (place p)
  copy : ∀ source target w u w', place source ≠ place target →
    files.copy source target w = (.ok u, w') →
    ∃ content, look w (place source) = some (.file content) ∧
      look w' = (look w).put (place target) content
  move : ∀ source target w u w', files.move source target w = (.ok u, w') →
    look w' = (look w).moved (place source) (place target)
  writeText : ∀ p text w u w', files.writeText p text w = (.ok u, w') →
    look w' = (look w).put (place p) text.toUTF8

/-! ### Seeds -/

/-- A name carries a mark if the mark occurs in it. -/
theorem carries_iff {mark name : String} :
    carries mark name = true ↔ mark.toList <:+: name.toList := by
  rw [carries, Option.isSome_iff_ne_none, ne_eq, Text.cutAt_eq_none_iff, not_not]

/-- The first round starts from all seeds, a later one from those that raised the coverage or
stem from the operator. -/
def Eligible (round : Nat) (name : String) : Prop :=
  round = 1 ∨ coverageMark.toList <:+: name.toList ∨ originMark.toList <:+: name.toList

/-- A name is staged for a round when it is eligible for it. -/
theorem isStaged_iff {round : Nat} (hround : 1 ≤ round) {name : String} :
    isStaged round name = true ↔ Eligible round name := by
  have hfirst : round ≤ 1 ↔ round = 1 := ⟨fun h => Nat.le_antisymm h hround, Nat.le_of_eq⟩
  rw [isStaged, Bool.or_eq_true, Bool.or_eq_true, decide_eq_true_iff, carries_iff, carries_iff,
    hfirst, or_assoc, Eligible]

/-- The names of staged seeds with their contents, in the order of their numbers. -/
def numbered (contents : List ByteArray) : List (String × ByteArray) :=
  (contents.zipIdx 1).map fun entry => (stagedName entry.2, entry.1)

/-- The staged seeds take the names of their numbers, in the order of the listing. -/
theorem zip_stagedSeeds {round : Nat} {names : List String} {contents : List ByteArray}
    (hlength : (names.filter (isStaged round)).length = contents.length) :
    ((stagedSeeds round names).map Prod.snd).zip contents = numbered contents := by
  have hzip : ∀ (names : List String) (contents : List ByteArray) (number : Nat),
      names.length = contents.length →
      ((names.zipIdx number).map fun entry => stagedName entry.2).zip contents =
        (contents.zipIdx number).map fun entry => (stagedName entry.2, entry.1) := by
    intro names
    induction names with
    | nil =>
      intro contents number hlength
      rw [List.length_nil] at hlength
      rw [List.eq_nil_of_length_eq_zero hlength.symm]
      rfl
    | cons name names ih =>
      intro contents number hlength
      cases contents with
      | nil => cases hlength
      | cons content contents =>
        exact congrArg ((stagedName number, content) :: ·) (ih contents (number + 1)
          (Nat.succ_injective hlength))
  rw [stagedSeeds, List.map_map]
  exact hzip _ contents 1 hlength

/-- The numbers of staged seeds tell their names apart. -/
theorem nodup_numbered (contents : List ByteArray) : ((numbered contents).map Prod.fst).Nodup := by
  have hnames : (numbered contents).map Prod.fst =
      (List.range' 1 contents.length).map stagedName := by
    rw [numbered, List.map_map, ← List.zipIdx_map_snd 1 contents, List.map_map]
    rfl
  rw [hnames]
  refine List.Nodup.map_on ?_ List.nodup_range'
  intro m _ n _ hmn
  exact toString_injective (String.append_right_inj _ |>.1 hmn)

section

variable {files : FileSystem σ} {place : Path → Place} {look : σ → View}
  (h : files.Obeys place look)

include h

/-- Listing the files of a directory in the order of their names. -/
theorem look_sortedFileNames {dir : Path} {names : List String} {w w' : σ}
    (hok : sortedFileNames files dir w = (.ok names, w')) : look w' = look w ∧
      names.Pairwise (· < ·) ∧
      ∀ name, name ∈ names ↔ ∃ content, (look w).HasFile (place dir) name content := by
  obtain ⟨listed, w₁, hlist, hok⟩ := bind_eq_ok hok
  obtain ⟨regular, w₂, hobserve, hpure⟩ := bind_eq_ok hok
  cases hobserve
  cases hpure
  obtain ⟨hlook, hnodup, hmem⟩ := h.entryNames _ _ _ _ hlist
  refine ⟨hlook, pairwise_lt_mergeSort (hnodup.filter _), ?_⟩
  intro name
  -- of what is listed, the files are left
  rw [List.mem_mergeSort, List.mem_filter, hmem, h.isFile_iff, hlook]
  constructor
  · rintro ⟨⟨hname, -⟩, content, hfile⟩
    rw [h.place_join _ _ hname] at hfile
    exact ⟨content, hname, hfile⟩
  · rintro ⟨content, hname, hfile⟩
    refine ⟨⟨hname, by rw [hfile]; exact Option.some_ne_none _⟩, content, ?_⟩
    rwa [h.place_join _ _ hname]

/-- Selecting seeds writes nothing. -/
theorem look_selectSeeds {dir : Path} {isFirst : Bool} {state : CampaignState}
    {selected : List Path × CampaignState} {w w' : σ}
    (hok : selectSeeds files dir isFirst state w = (.ok selected, w')) : look w' = look w := by
  obtain ⟨isDirectory, w₁, hobserve, hok⟩ := bind_eq_ok hok
  cases hobserve
  split at hok
  · obtain ⟨names, w₂, hlist, hpure⟩ := bind_eq_ok hok
    cases hpure
    exact (look_sortedFileNames h (orFail_eq_ok.1 hlist)).1
  · cases hok
    rfl

/-- Copying files of one directory into another one. -/
theorem look_copyAll {source target : Path} (hapart : place source ≠ place target)
    {items : List (String × String)} (hnames : ∀ item ∈ items, IsName item.1 ∧ IsName item.2)
    {u : Unit} {w w' : σ} (hok : copyAll files source target items w = (.ok u, w')) :
    ∃ contents, List.Forall₂ (fun item content =>
        look w (place source ++ [item.1]) = some (.file content)) items contents ∧
      look w' = (look w).putAll (place target) ((items.map Prod.snd).zip contents) := by
  induction items generalizing w with
  | nil =>
    cases hok
    exact ⟨[], .nil, rfl⟩
  | cons item rest ih =>
    obtain ⟨hitem, hrest⟩ := List.forall_mem_cons.1 hnames
    obtain ⟨_, w₁, hcopy, hok⟩ := bind_eq_ok hok
    have hplaces : place (source.join item.1) ≠ place (target.join item.2) := by
      rw [h.place_join _ _ hitem.1, h.place_join _ _ hitem.2]
      exact fun heq => hapart (List.append_inj' heq rfl).1
    obtain ⟨content, hsource, hput⟩ := h.copy _ _ _ _ _ hplaces (orFail_eq_ok.1 hcopy)
    rw [h.place_join _ _ hitem.1] at hsource
    rw [h.place_join _ _ hitem.2] at hput
    obtain ⟨contents, hcontents, hlook⟩ := ih hrest hok
    refine ⟨content :: contents, .cons hsource (hcontents.imp ?_), ?_⟩
    · intro other content' hother
      rwa [hput, put_of_ne] at hother
      exact fun heq => hapart (List.append_inj' heq rfl).1
    · rw [hlook, hput]
      rfl

/-- What staging copies: of the files of the source, in the order of their names, those that are
staged in the round. -/
theorem look_stageSeeds {source target : Path} {round count : Nat} {w w' : σ}
    (hapart : place source ≠ place target)
    (hok : stageSeeds files source target round w = (.ok count, w')) :
    ∃ names contents, names.Pairwise (· < ·) ∧
      (∀ name, name ∈ names ↔ isStaged round name = true ∧
        ∃ content, (look w).HasFile (place source) name content) ∧
      List.Forall₂ (fun name content => (look w).HasFile (place source) name content)
        names contents ∧
      look w' = ((look w).opened (place target)).putAll (place target) (numbered contents) := by
  obtain ⟨_, w₁, hcreate, hok⟩ := bind_eq_ok hok
  have hopened := h.createDirectories _ _ _ _ (orFail_eq_ok.1 hcreate)
  have hfiles : ∀ name content, (look w₁).HasFile (place source) name content ↔
      (look w).HasFile (place source) name content := by
    intro name content
    rw [hopened, hasFile_opened]
  obtain ⟨isDirectory, w₂, hobserve, hok⟩ := bind_eq_ok hok
  cases hobserve
  split at hok
  · obtain ⟨names, w₂, hlist, hok⟩ := bind_eq_ok hok
    obtain ⟨hlook, hsorted, hmem⟩ := look_sortedFileNames h (orFail_eq_ok.1 hlist)
    obtain ⟨_, w₃, hcopy, hpure⟩ := bind_eq_ok hok
    cases hpure
    have hnames : ∀ item ∈ stagedSeeds round names, IsName item.1 ∧ IsName item.2 := by
      intro item hitem
      obtain ⟨entry, hentry, rfl⟩ := List.mem_map.1 hitem
      obtain ⟨content, hname, -⟩ := (hmem _).1
        (List.mem_of_mem_filter (List.fst_mem_of_mem_zipIdx hentry))
      refine ⟨hname, ?_⟩
      simpa [stagedName] using isName_numbered entry.2 "" rfl (by decide : 's' ≠ '.') (by decide)
        (by decide)
    obtain ⟨contents, hcontents, hput⟩ := look_copyAll h hapart hnames hcopy
    have hfound : List.Forall₂ (fun name content => (look w).HasFile (place source) name content)
        (names.filter (isStaged round)) contents := by
      rw [← map_fst_stagedSeeds, List.forall₂_map_left_iff]
      have hsame := (List.forall₂_and_left _ _).2
        ⟨fun item hitem => (hnames item hitem).1, hcontents⟩
      refine hsame.imp ?_
      rintro item content ⟨hname, hfile⟩
      rw [hlook] at hfile
      exact (hfiles _ _).1 ⟨hname, hfile⟩
    refine ⟨_, contents, hsorted.filter _, ?_, hfound, ?_⟩
    · intro name
      rw [List.mem_filter, hmem, and_comm]
      simp only [hfiles]
    · rw [hput, zip_stagedSeeds hfound.length_eq, hlook, hopened]
  · next hmissing =>
    cases hok
    refine ⟨[], [], .nil, ?_, .nil, hopened⟩
    intro name
    refine iff_of_false List.not_mem_nil ?_
    rintro ⟨-, content, hfile⟩
    exact hmissing ((h.isDirectory_iff _ _).2
      (((hfiles _ _).2 hfile).eq_directory (h.isTree _)))

omit h in
/-- A name is looked up among listed files exactly when the directory has it with that content. -/
theorem lookup_zip {v : View} {dir : Place} {names : List String} {contents : List ByteArray}
    (hfiles : List.Forall₂ (v.HasFile dir) names contents) (name : String) (content : ByteArray) :
    (names.zip contents).lookup name = some content ↔
      name ∈ names ∧ v.HasFile dir name content := by
  induction hfiles with
  | nil => simp
  | @cons first firstContent names contents hfirst _ ih =>
    rw [List.zip_cons_cons, List.lookup_cons]
    by_cases hname : name = first
    · subst hname
      simp only [beq_self_eq_true, List.mem_cons, true_or, true_and, Option.some.injEq]
      constructor
      · rintro rfl
        exact hfirst
      · intro hfile
        have heq := hfirst.2.symm.trans hfile.2
        cases heq
        rfl
    · simp only [beq_false_of_ne hname, ih, List.mem_cons, hname, false_or]

/-- Importing a corpus into an empty directory copies all its files. -/
theorem look_importCorpus {source target : Path} {count : Nat} {w w' : σ}
    (hempty : (look w).below (place target) = folder [])
    (hok : importCorpus files source target w = (.ok count, w')) :
    (∀ name content, (look w').HasFile (place target) name content ↔
      (look w).HasFile (place source) name content) ∧
    ∃ imported, look w' = (look w).putAll (place target) imported := by
  obtain ⟨isDirectory, w₁, hobserve, hok⟩ := bind_eq_ok hok
  cases hobserve
  split at hok
  · obtain ⟨_, w₁, hcreate, hok⟩ := bind_eq_ok hok
    have hthere : look w (place target) ≠ none := by
      rw [(below_eq_folder_iff.1 hempty).1]
      exact Option.some_ne_none _
    have hsame := h.createDirectories _ _ _ _ (orFail_eq_ok.1 hcreate)
    rw [(h.isTree w).opened_eq hthere] at hsame
    obtain ⟨names, w₂, hlist, hok⟩ := bind_eq_ok hok
    obtain ⟨hlook, hsorted, hmem⟩ := look_sortedFileNames h (orFail_eq_ok.1 hlist)
    rw [hsame] at hlook hmem
    split at hok
    · cases hok
    · next hnames =>
      obtain ⟨_, w₃, hcopy, hpure⟩ := bind_eq_ok hok
      cases hpure
      -- an empty directory has nothing to import
      have hapart : place source ≠ place target := by
        intro heq
        obtain ⟨name, hname⟩ := List.exists_mem_of_ne_nil names (by simpa using hnames)
        obtain ⟨content, -, hfile⟩ := (hmem name).1 hname
        rw [heq, (below_eq_folder_iff.1 hempty).2.1] at hfile
        cases hfile
      have hitems : ∀ item ∈ names.map fun name => (name, name), IsName item.1 ∧ IsName item.2 := by
        intro item hitem
        obtain ⟨name, hname, rfl⟩ := List.mem_map.1 hitem
        obtain ⟨content, hfile, -⟩ := (hmem name).1 hname
        exact ⟨hfile, hfile⟩
      obtain ⟨contents, hcontents, hput⟩ := look_copyAll h hapart hitems hcopy
      rw [hlook, List.forall₂_map_left_iff] at hcontents
      have hfound : List.Forall₂ ((look w).HasFile (place source)) names contents :=
        (List.forall₂_and_left _ _).2 ⟨fun name hname => by
          obtain ⟨content, hfile, -⟩ := (hmem name).1 hname
          exact hfile, hcontents⟩
      have hzip : ((names.map fun name => (name, name)).map Prod.snd).zip contents =
          names.zip contents := by simp [Function.comp_def]
      rw [hlook, hzip] at hput
      refine ⟨?_, _, hput⟩
      have hnodup : ((names.zip contents).map Prod.fst).Nodup := by
        rw [List.map_fst_zip hfound.length_eq.le]
        exact hsorted.imp fun hlt => hlt.ne
      have hfolder : (look w').below (place target) = folder (names.zip contents) := by
        rw [hput]
        exact below_putAll hempty hnodup
      intro name content
      rw [HasFile, (below_eq_folder_iff.1 hfolder).2.1, Option.map_eq_some_iff]
      simp only [Entry.file.injEq, exists_eq_right, lookup_zip hfound]
      constructor
      · rintro ⟨-, -, hfile⟩
        exact hfile
      · intro hfile
        exact ⟨hfile.1, (hmem name).2 ⟨content, hfile⟩, hfile⟩
  · cases hok

/-- The files that tasks are written to, and what is written. -/
theorem look_writeAll {dir : Path} {number : Nat} {tasks : List Task} {paths : List Path}
    {w w' : σ} (hok : Task.writeAll files dir number tasks w = (.ok paths, w')) :
    look w' = (look w).putAll (place dir) ((tasks.zipIdx number).map fun entry =>
      ("task_" ++ toString entry.2 ++ ".txt", entry.1.render.toUTF8)) := by
  induction tasks generalizing number w paths with
  | nil =>
    cases hok
    rfl
  | cons task rest ih =>
    obtain ⟨_, w₁, hwrite, hok⟩ := bind_eq_ok hok
    obtain ⟨others, w₂, hothers, hpure⟩ := bind_eq_ok hok
    cases hpure
    have hput := h.writeText _ _ _ _ _ (orFail_eq_ok.1 hwrite)
    have hname : IsName ("task_" ++ toString number ++ ".txt") := by
      exact isName_numbered number ".txt" rfl (by decide : 't' ≠ '.') (by decide) (by decide)
    rw [Layout.taskFile, h.place_join _ _ hname] at hput
    rw [ih hothers, hput]
    rfl

/-- Moving items of the fleet's directory carries them into another one. -/
theorem carried_moveAll {l : Layout} {workers : Nat} {target : Path}
    (hapart : ∀ front back, place l.activeRuns ++ front ≠ place target ++ back)
    {items : List Layout.Item} (hshelf : ∀ item ∈ items, item.shelf = ["active_runs"])
    (hnodup : (items.map (·.name workers)).Nodup) {u : Unit} {w w' : σ}
    (hempty : ∀ item ∈ items, look w (place target ++ [item.name workers]) = none)
    (hok : moveAll files target (items.map (l.pathOf workers)) w = (.ok u, w')) :
    Carried (look w) (look w') (place l.activeRuns) (place target)
      (items.map (·.name workers)) := by
  induction items generalizing w with
  | nil =>
    cases hok
    exact ⟨by simp, by simp, fun _ _ => rfl⟩
  | cons item rest ih =>
    obtain ⟨hitem, hrest⟩ := List.forall_mem_cons.1 hshelf
    obtain ⟨hnew, hnodup⟩ := List.nodup_cons.1 hnodup
    obtain ⟨hitemEmpty, hrestEmpty⟩ := List.forall_mem_cons.1 hempty
    have hname := item.isName_name workers
    have hplace : place (l.pathOf workers item) = place l.activeRuns ++ [item.name workers] := by
      rw [Layout.pathOf_active l workers hitem, h.place_join _ _ hname]
    -- however the first item is carried, the rest follows
    have hfollow : ∀ w₁, Carried (look w) (look w₁) (place l.activeRuns) (place target)
          [item.name workers] →
        moveAll files target (rest.map (l.pathOf workers)) w₁ = (.ok u, w') →
        Carried (look w) (look w') (place l.activeRuns) (place target)
          ((item :: rest).map (·.name workers)) := by
      intro w₁ hcarried hok
      refine hcarried.cons hapart hnew (ih hrest hnodup ?_ hok)
      intro other hother
      rw [hcarried.others _ ?_]
      · exact hrestEmpty other hother
      · rintro _ (_ | ⟨_, ⟨⟩⟩)
        refine ⟨?_, ?_⟩
        · rintro ⟨back, hback⟩
          rw [List.append_assoc] at hback
          exact hapart _ _ hback
        · intro hbehind
          exact hnew (List.mem_map.2 ⟨other, hother, (prefix_append_cons.1 hbehind).symm⟩)
    rw [Layout.moveAll_cons] at hok
    obtain ⟨isPresent, w₁, hobserve, hok⟩ := bind_eq_ok hok
    cases hobserve
    split at hok
    · obtain ⟨_, w₂, hmove, hok⟩ := bind_eq_ok hok
      refine hfollow w₂ ?_ hok
      rw [h.move _ _ _ _ _ (orFail_eq_ok.1 hmove), hplace, h.place_join _ _ hname]
      exact carried_moved hapart _
    · next habsent =>
      refine hfollow w ?_ hok
      rw [h.isPresent_iff, not_not, hplace] at habsent
      exact carried_of_eq_none (h.isTree w) habsent hitemEmpty

end

end FuzzCampaign
