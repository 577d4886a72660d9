import FuzzCampaign.Proofs.Campaign.Assignment
import FuzzCampaign.Proofs.Campaign.Grounds
import FuzzCampaign.Proofs.Storage.Disk

/-!
# The rounds of a campaign are kept apart

Every round works in the same directories.  When it is over, what it leaves behind moves into
a backup of its own, and the next round finds nothing of it: the seeds, the tasks and the
drawings of the graph that are there when workers are launched are those of their round.

What carries the induction over the rounds is that the backups of all finished rounds are in
place, and that the scheduler and the fleet write elsewhere.

Main definitions:

- `Campaign.Offered`: the files that a round may start from.
- `Campaign.Laid`: what the scheduler puts into place for a round.
- `Campaign.Archived`: the backup of a finished round.
- `Campaign.Tidy`: the backups of the first rounds are in place, and there is nothing else.

Main results:

- `Tidy.rotated`: one more round is archived.
- `ready_of_untilRound`: what a round finds when it begins.
- `rounds_kept_apart`: what is found when the workers of a round are launched.
- `mixed_afterLast`: where the count of rounds starts over, rounds are mixed up.
-/

namespace FuzzCampaign

open FuzzCampaign.Action View Grounds Layout

namespace Layout

/-- Whatever has the name of something that a round leaves behind is just that. -/
theorem name_mem_leavings {round workers : Nat} (hround : 1 ≤ round) {item : Item}
    (hitem : item.IsCounted workers) (hshelf : item.shelf = ["active_runs"]) :
    item.name workers ∈ (leavings round workers).map (·.name workers) ↔
      item ∈ leavings round workers := by
  constructor
  · intro h
    obtain ⟨other, hother, hname⟩ := List.mem_map.1 h
    rwa [← Item.eq_of_name_eq (isCounted_of_mem_leavings hround hother) hitem
      ((shelf_of_mem_leavings hother).trans hshelf.symm) hname]
  · exact List.mem_map_of_mem

end Layout

/-! ## A crew on a disk -/

namespace Disk

/-- Between two disks only things of some names changed below a place. -/
def Spared (touched : String → Prop) (root : Place) (d d' : Disk) : Prop :=
  Spares touched (d.look.below root) (d'.look.below root)

/-- A worker settles in the directory of the fleet, with a queue and a log of its own. -/
def settle (root : Place) (name : String) : Action Disk Fault Unit := fun d =>
  if d.look (root ++ ["active_runs"]) = some .directory then
    (do
      openDirectory (root ++ ["active_runs", name, "queue"])
      put (root ++ ["active_runs", name, "queue", "id_orig"]) "seed".toUTF8
      put (root ++ ["active_runs", name ++ ".log"]) "started".toUTF8 : Action Disk Fault Unit) d
  else (.error .notFound, d)

section

variable {touched : String → Prop} {root : Place} {name : String} {d : Disk}

/-- A written file spares whatever it is not part of. -/
theorem spared_put (hname : touched name) (rest : Place) (content : ByteArray) :
    Spared touched root d (put (root ++ "active_runs" :: name :: rest) content d).2 := by
  rcases look_put_snd (root ++ "active_runs" :: name :: rest) content d with hlook | hsame
  · rw [Spared, hlook, put_below]
    exact (spares_put _ name rest content).mono fun _ heq => heq ▸ hname
  · rw [hsame]
    exact .refl _ _

/-- An opened directory spares whatever it is not part of. -/
theorem spared_openDirectory (hactive : d.look (root ++ ["active_runs"]) = some .directory)
    (hname : touched name) (rest : Place) :
    Spared touched root d (openDirectory (root ++ "active_runs" :: name :: rest) d).2 := by
  rcases look_openDirectory_snd (root ++ "active_runs" :: name :: rest) d with hlook | hsame
  · rw [Spared, hlook, opened_below]
    exact (spares_opened (d.isTree.below root) hactive name rest).mono fun _ heq => heq ▸ hname
  · rw [hsame]
    exact .refl _ _

/-- A worker that settles in spares whatever is not its own. -/
theorem spared_settle (hdir : touched name) (hlog : touched (name ++ ".log")) :
    Spared touched root d (settle root name d).2 := by
  rw [settle]
  split
  · next hactive =>
    refine bind_snd (I := Spared touched root d) (spared_openDirectory hactive hdir ["queue"]) ?_
    intro _ d₁ _ h₁
    refine bind_snd (I := Spared touched root d)
      (h₁.trans (spared_put hdir ["queue", "id_orig"] _)) ?_
    intro _ d₂ _ h₂
    exact h₂.trans (spared_put hlog [] _)
  · exact .refl _ _

end

/-- A crew whose workers settle when they are launched. -/
def crew (c : Campaign) : Crew Disk where
  files := files
  launch spec := (do
    settle c.settings.layout.outDir.steps spec.name
    return ⟨spec.name, 1⟩ : Action Disk Fault Worker).orFail (.spawn spec.name spec.program)
  terminate _ d := (.ok (), d)
  pause _ d := (true, d)
  profile _ d := (.ok {}, d)

/-- The crew on a disk disturbs none of the campaign's files. -/
theorem undisturbed_crew (c : Campaign) : c.Undisturbed (crew c) Path.steps look where
  obeys := obeys_files
  launch spec d hspec := by
    have hname : IsFleetName c.settings.roundWorkers spec.name ∧
        IsFleetName c.settings.roundWorkers (spec.name ++ ".log") := by
      rcases hspec with rfl | ⟨phase, index, round, hindex, hround, rfl⟩
      · exact ⟨⟨.fixture .monitorDir, trivial, trivial, rfl⟩,
          .fixture .monitorLog, trivial, trivial, rfl⟩
      · rw [Fleet.name_roundWorker]
        exact ⟨⟨.workerDir index round, trivial, ⟨hindex, hround⟩, rfl⟩,
          .workerLog index round, trivial, ⟨hindex, hround⟩, rfl⟩
    have hlaunch : ((crew c).launch spec d).2 = ((do
        settle c.settings.layout.outDir.steps spec.name
        return ⟨spec.name, 1⟩ : Action Disk Fault Worker) d).2 :=
      congrArg Prod.snd (orFail_apply _ _ d)
    rw [hlaunch]
    exact bind_snd (I := Spared _ c.settings.layout.outDir.steps d)
      (spared_settle hname.1 hname.2) fun _ _ _ hsettled => hsettled
  terminate _ _ := .refl _ _
  pause _ _ := .refl _ _
  profile _ _ := .refl _ _

/-- A disk with a corpus of one seed. -/
def withCorpus : Disk where
  entries := [(["corpus", "seed"], .file "seed".toUTF8), (["corpus"], .directory), ([], .directory)]
  isTree := isTree_of_forall (by decide)

end Disk

namespace Campaign

open Progress

variable {σ : Type} (c : Campaign) (crew : Crew σ) (place : Path → Place) (look : σ → View)
  (world : σ)

/-! ## What is kept -/

/-- The files that a round may start from: the first one those of the operator's corpus, a
later one those that are in the queue of the monitor when it begins. -/
def Offered (round : Nat) (name : String) (content : ByteArray) : Prop :=
  if round = 1 then (look world).HasFile (place c.settings.campaign.seedCorpus) name content
  else ∃ p, c.untilRound crew round (c.start world) = (.ok (), p) ∧
    (look p.world).HasFile (place c.settings.layout.monitorQueue) name content

/-- The seeds of a round are copies of the files that it starts from, in the order of their
names. -/
structure Staged (round : Nat) (names : List String) (contents : List ByteArray) (u : View) :
    Prop where
  sorted : names.Pairwise (· < ·)
  mem_iff : ∀ name, name ∈ names ↔
    Eligible round name ∧ ∃ content, c.Offered crew place look world round name content
  offered : List.Forall₂ (c.Offered crew place look world round) names contents
  seeds : u.below ["active_runs", "seeds"] = folder (numbered contents)

/-- What the scheduler puts into place for a round: its seeds, its tasks if there are any, and
two files that show its graph. -/
structure Laid (round : Nat) (p : Progress σ) : Prop where
  staged : ∃ names contents,
    c.Staged crew place look world round names contents (c.grounds place look p.world)
  no_tasks : round = 1 → (c.grounds place look p.world).below ["active_runs", "tasks"] = folder []
  tasks : 2 ≤ round → ∃ q plan, c.untilCut crew round (c.start world) = (.ok (), q) ∧
    c.cut q.survey.graph = (.ok plan, p.survey.graph) ∧
    (c.grounds place look p.world).below ["active_runs", "tasks"] =
      folder (plan.files p.survey.graph)
  drawing : c.grounds place look p.world ["active_runs", "callgraph.dot"] =
    some (.file p.survey.graph.toDot.toUTF8)
  snapshot : c.grounds place look p.world ["active_runs", "callgraph.json"] =
    some (.file p.survey.graph.snapshot.render.toUTF8)

/-- The work of the scheduler for a round stays as it is. -/
def Lasting (round : Nat) (u u' : View) : Prop :=
  ∀ item ∈ leavings round c.settings.roundWorkers, ¬ item.IsFleet →
    u'.below ["active_runs", item.name c.settings.roundWorkers] =
      u.below ["active_runs", item.name c.settings.roundWorkers]

/-- The backup of a finished round is what the round left behind, as it was when the round
ended.  The work of the scheduler was then as it had been when workers were launched. -/
def Archived (round : Nat) (u : View) : Prop :=
  ∃ p q, c.untilLaunch crew round (c.start world) = (.ok (), p) ∧
    c.Laid crew place look world round p ∧
    c.untilRound crew (round + 1) (c.start world) = (.ok (), q) ∧
    c.Lasting round (c.grounds place look p.world) (c.grounds place look q.world) ∧
    u.below [(Item.backup round).name c.settings.roundWorkers] =
      ((c.grounds place look q.world).below ["active_runs"]).archive
        ((leavings round c.settings.roundWorkers).map (·.name c.settings.roundWorkers))

/-- Below the output directory there is the directory of the fleet, the backups of the first
rounds, and nothing else. -/
structure Tidy (done : Nat) (u : View) : Prop where
  active : u ["active_runs"] = some .directory
  nothing_else : ∀ name rest, u (name :: rest) ≠ none → name = "active_runs" ∨
    ∃ round, 1 ≤ round ∧ round ≤ done ∧
      name = (Item.backup round).name c.settings.roundWorkers
  archived : ∀ round, 1 ≤ round → round ≤ done → c.Archived crew place look world round u

variable {c crew place look world} {done round : Nat} {u u' : View}

/-- What is staged depends on the directory of the seeds alone. -/
theorem Staged.congr {names : List String} {contents : List ByteArray}
    (h : c.Staged crew place look world round names contents u)
    (hseeds : u'.below ["active_runs", "seeds"] = u.below ["active_runs", "seeds"]) :
    c.Staged crew place look world round names contents u' :=
  ⟨h.sorted, h.mem_iff, h.offered, hseeds.trans h.seeds⟩

/-- What is archived depends on the backup alone. -/
theorem Archived.congr (h : c.Archived crew place look world round u)
    (hbackup : u'.below [(Item.backup round).name c.settings.roundWorkers] =
      u.below [(Item.backup round).name c.settings.roundWorkers]) :
    c.Archived crew place look world round u' := by
  obtain ⟨p, q, hp, hlaid, hq, hlasting, harchive⟩ := h
  exact ⟨p, q, hp, hlaid, hq, hlasting, hbackup.trans harchive⟩

/-- Nothing is filed under another round. -/
theorem Archived.mem_leavings (h : c.Archived crew place look world round u) (hround : 1 ≤ round)
    {item : Item} (hitem : item.IsCounted c.settings.roundWorkers)
    (hshelf : item.shelf = ["active_runs"])
    (hfound : u [(Item.backup round).name c.settings.roundWorkers,
      item.name c.settings.roundWorkers] ≠ none) :
    item ∈ leavings round c.settings.roundWorkers := by
  obtain ⟨_, _, -, -, -, -, harchive⟩ := h
  refine (name_mem_leavings hround hitem hshelf).1 ?_
  by_contra hname
  exact hfound ((congrFun harchive [_]).trans (if_neg hname))

/-- The fleet does not touch the work of the scheduler. -/
theorem lasting_of_spares (hround : 1 ≤ round)
    (h : Spares (IsFleetName c.settings.roundWorkers) u u') : c.Lasting round u u' := by
  intro item hitem hfleet
  exact h.below_eq (not_isFleetName (isCounted_of_mem_leavings hround hitem)
    (shelf_of_mem_leavings hitem) hfleet)

/-- A fixture outside the fleet is not touched by the fleet. -/
theorem below_fixture (h : Spares (IsFleetName c.settings.roundWorkers) u u') (f : Fixture)
    (hf : ¬ (Item.fixture f).IsFleet) :
    u'.below ["active_runs", f.name] = u.below ["active_runs", f.name] := by
  have hfixture : (Item.fixture f).IsCounted c.settings.roundWorkers := trivial
  exact h.below_eq (not_isFleetName hfixture rfl hf)

namespace Tidy

/-- Work in the directory of the fleet leaves the backups alone. -/
theorem of_spares {touched : String → Prop} (h : c.Tidy crew place look world done u)
    (hspares : Spares touched u u') : c.Tidy crew place look world done u' := by
  refine ⟨hspares.active_eq.trans h.active, ?_, ?_⟩
  · intro name rest hname
    by_cases hactive : name = "active_runs"
    · exact .inl hactive
    · rw [show u' (name :: rest) = u (name :: rest) from
        congrFun (hspares.below_top hactive) rest] at hname
      exact h.nothing_else name rest hname
  · intro round hround hdone
    exact (h.archived round hround hdone).congr (hspares.below_top (backup_ne_active _ _))

/-- There is no backup of the next round yet. -/
theorem backup_missing (h : c.Tidy crew place look world done u) :
    u [(Item.backup (done + 1)).name c.settings.roundWorkers] = none := by
  by_contra hthere
  rcases h.nothing_else _ [] hthere with hactive | ⟨round, -, hround, hname⟩
  · exact backup_ne_active _ _ hactive
  · have hsame := backup_name_injective hname
    omega

/-- The next round is archived. -/
theorem rotated (h : c.Tidy crew place look world done u)
    (hrotated : Rotated (done + 1) c.settings.roundWorkers u u') {p q : Progress σ}
    (hp : c.untilLaunch crew (done + 1) (c.start world) = (.ok (), p))
    (hlaid : c.Laid crew place look world (done + 1) p)
    (hq : c.untilRound crew (done + 2) (c.start world) = (.ok (), q))
    (hu : c.grounds place look q.world = u)
    (hlasting : c.Lasting (done + 1) (c.grounds place look p.world) u) :
    c.Tidy crew place look world (done + 1) u' := by
  refine ⟨hrotated.active.trans h.active, ?_, ?_⟩
  · intro name rest hname
    by_cases hactive : name = "active_runs"
    · exact .inl hactive
    · by_cases hbackup : name = (Item.backup (done + 1)).name c.settings.roundWorkers
      · exact .inr ⟨done + 1, Nat.le_add_left 1 done, Nat.le_refl _, hbackup⟩
      · rw [show u' (name :: rest) = u (name :: rest) from
          congrFun (hrotated.others name hactive hbackup) rest] at hname
        rcases h.nothing_else name rest hname with hactive | ⟨round, hpos, hround, hname⟩
        · exact .inl hactive
        · exact .inr ⟨round, hpos, Nat.le_succ_of_le hround, hname⟩
  · intro round hround hdone
    rcases Nat.lt_or_eq_of_le hdone with hearlier | rfl
    · refine (h.archived round hround (Nat.le_of_lt_succ hearlier)).congr ?_
      refine hrotated.others _ (backup_ne_active _ _) ?_
      intro hname
      exact Nat.ne_of_lt hearlier (backup_name_injective hname)
    · rw [← hu] at hlasting
      refine ⟨p, q, hp, hlaid, hq, hlasting, ?_⟩
      rw [hu]
      exact hrotated.backup

end Tidy

/-! ## Staging -/

variable (c crew place look world) in
/-- The directory of the fleet as the scheduler finds it before it stages seeds. -/
structure Cleared (round : Nat) (w : σ) : Prop where
  tidy : c.Tidy crew place look world (round - 1) (c.grounds place look w)
  seeds : (c.grounds place look w).below ["active_runs", "seeds"] = folder [] ∨
    c.grounds place look w ["active_runs", "seeds"] = none
  tasks : (c.grounds place look w).below ["active_runs", "tasks"] = folder [] ∨
    c.grounds place look w ["active_runs", "tasks"] = none
  source : ∀ name content, (look w).HasFile (place (c.seedSource round)) name content ↔
    c.Offered crew place look world round name content

variable (c crew place look world) in
/-- What a round finds when it begins. -/
structure Ready (round : Nat) (p : Progress σ) : Prop where
  tidy : c.Tidy crew place look world (round - 2) (c.grounds place look p.world)
  seeds : round = 1 → (c.grounds place look p.world).below ["active_runs", "seeds"] = folder []
  tasks : round = 1 → (c.grounds place look p.world).below ["active_runs", "tasks"] = folder []
  source : round = 1 → ∀ name content,
    (c.grounds place look p.world).HasFile ["active_runs", "seeds_origin"] name content ↔
      (look world).HasFile (place c.settings.campaign.seedCorpus) name content
  previous : 2 ≤ round → ∃ q, c.untilLaunch crew (round - 1) (c.start world) = (.ok (), q) ∧
    c.Laid crew place look world (round - 1) q ∧
    c.Lasting (round - 1) (c.grounds place look q.world) (c.grounds place look p.world)

section

variable (h : c.Undisturbed crew place look)

include h

/-- The queue of the monitor lies among the active runs. -/
theorem place_monitorQueue : place c.settings.layout.monitorQueue =
    place c.settings.layout.outDir ++ ["active_runs", "monitor", "queue"] := by
  rw [monitorQueue, h.obeys.place_join _ _ ⟨by decide, by decide, by decide, by decide⟩]
  refine (congrArg (· ++ _) (place_fixture h .monitorDir)).trans ?_
  rw [List.append_assoc]
  rfl

/-- The seeds are never staged from the directory that they are staged into. -/
theorem place_seedSource_ne (round : Nat) :
    place (c.seedSource round) ≠ place c.settings.layout.seeds := by
  intro heq
  rw [show place c.settings.layout.seeds = _ from place_fixture h .seeds, seedSource] at heq
  split at heq
  · have horigin : place c.settings.layout.seedsOrigin = _ := place_fixture h .seedsOrigin
    rw [horigin, List.append_cancel_left_eq] at heq
    exact absurd heq (by decide)
  · rw [place_monitorQueue h, List.append_cancel_left_eq] at heq
    exact absurd heq (by simp)

/-- Creating the directory of tasks and staging seeds. -/
theorem staged_of_cleared (hround : 1 ≤ round) {w w₁ w₂ : σ}
    (hcleared : c.Cleared crew place look world round w) {v : Unit} {count : Nat}
    (htasks : crew.files.createDirectories c.settings.layout.tasks w = (.ok v, w₁))
    (hseeds : stageSeeds crew.files (c.seedSource round) c.settings.layout.seeds round w₁ =
      (.ok count, w₂)) :
    c.Tidy crew place look world (round - 1) (c.grounds place look w₂) ∧
      (c.grounds place look w₂).below ["active_runs", "tasks"] = folder [] ∧
      ∃ names contents,
        c.Staged crew place look world round names contents (c.grounds place look w₂) := by
  -- the directory of tasks
  have hgrounds₁ : c.grounds place look w₁ =
      (c.grounds place look w).opened ["active_runs", "tasks"] :=
    grounds_createDirectories h (f := .tasks) htasks
  have htaskFolder := (isTree_grounds h w).below_opened hcleared.tasks
  have hspares₁ := spares_opened (isTree_grounds h w) hcleared.tidy.active "tasks" []
  have htidy₁ := hcleared.tidy.of_spares hspares₁
  rw [← hgrounds₁] at htaskFolder hspares₁ htidy₁
  have hlook₁ := h.obeys.createDirectories _ _ _ _ htasks
  -- the seeds
  obtain ⟨names, contents, hsorted, hmem, hfiles, hlook₂⟩ :=
    look_stageSeeds h.obeys (place_seedSource_ne h round) hseeds
  have hgrounds₂ : c.grounds place look w₂ = ((c.grounds place look w₁).opened
      ["active_runs", "seeds"]).putAll ["active_runs", "seeds"] (numbered contents) := by
    have hplace : place c.settings.layout.seeds =
      place c.settings.layout.outDir ++ ["active_runs", "seeds"] := place_fixture h .seeds
    rw [grounds, hlook₂, hplace, putAll_below, opened_below]
    rfl
  have hempty : (c.grounds place look w₁).below ["active_runs", "seeds"] = folder [] ∨
      c.grounds place look w₁ ["active_runs", "seeds"] = none := by
    have hkept : (c.grounds place look w₁).below ["active_runs", "seeds"] =
        (c.grounds place look w).below ["active_runs", "seeds"] := hspares₁.below_eq (by decide)
    rw [hkept, show c.grounds place look w₁ ["active_runs", "seeds"] =
      c.grounds place look w ["active_runs", "seeds"] from congrFun hkept []]
    exact hcleared.seeds
  have hseedFolder := (isTree_grounds h w₁).below_opened hempty
  have hspares₂ := spares_opened (isTree_grounds h w₁) htidy₁.active "seeds" []
  have hstaged : (c.grounds place look w₂).below ["active_runs", "seeds"] =
      folder (numbered contents) := by
    rw [hgrounds₂]
    exact below_putAll hseedFolder (nodup_numbered contents)
  have hspares₃ := hspares₂.trans (spares_putAll _ "seeds" (numbered contents))
  rw [← hgrounds₂] at hspares₃
  have hoffered : ∀ name content,
      (look w₁).HasFile (place (c.seedSource round)) name content ↔
        c.Offered crew place look world round name content := by
    intro name content
    rw [hlook₁, hasFile_opened]
    exact hcleared.source name content
  refine ⟨htidy₁.of_spares hspares₃, (hspares₃.below_eq (by decide)).trans htaskFolder, names,
    contents, hsorted, ?_, hfiles.imp fun name content => (hoffered name content).1, hstaged⟩
  intro name
  rw [hmem, isStaged_iff hround]
  simp only [hoffered]

omit h in
/-- The first round begins with empty directories and a copy of the corpus. -/
theorem Ready.cleared_first {p : Progress σ} (hready : c.Ready crew place look world 1 p)
    (h : c.Undisturbed crew place look) : c.Cleared crew place look world 1 p.world := by
  refine ⟨hready.tidy, .inl (hready.seeds rfl), .inl (hready.tasks rfl), ?_⟩
  intro name content
  have horigin : place c.settings.layout.seedsOrigin =
      place c.settings.layout.outDir ++ ["active_runs", "seeds_origin"] :=
    place_fixture h .seedsOrigin
  rw [seedSource, if_pos rfl, Offered, if_pos rfl, ← hready.source rfl, horigin, grounds,
    hasFile_below]

/-- The queue of the monitor, seen on the grounds. -/
theorem hasFile_monitorQueue {w : σ} {name : String} {content : ByteArray} :
    (look w).HasFile (place c.settings.layout.monitorQueue) name content ↔ Path.IsName name ∧
      (c.grounds place look w).below ["active_runs", "monitor"] ["queue", name] =
        some (.file content) := by
  rw [HasFile, place_monitorQueue h, List.append_assoc]
  rfl

omit h in
/-- A later round begins with the rotation, which leaves the queue of the monitor alone. -/
theorem Ready.cleared_later {p : Progress σ}
    (hready : c.Ready crew place look world (done + 2) p) (h : c.Undisturbed crew place look)
    (huntil : c.untilRound crew (done + 2) (c.start world) = (.ok (), p)) {w : σ} {path : Path}
    (hok : rotateArtifacts crew.files c.settings.layout (done + 1) c.settings.roundWorkers
      p.world = (.ok path, w)) : c.Cleared crew place look world (done + 2) w := by
  have htidy : c.Tidy crew place look world done (c.grounds place look p.world) := hready.tidy
  obtain ⟨q, hq, hlaid, hlasting⟩ := hready.previous (Nat.le_add_left 2 done)
  have hrotated := rotated_of_rotateArtifacts h (Nat.le_add_left 1 done) htidy.active
    htidy.backup_missing hok
  have hqueue : (c.grounds place look w).below ["active_runs", "monitor"] =
      (c.grounds place look p.world).below ["active_runs", "monitor"] := by
    refine hrotated.stays _ ?_
    intro hmem
    have hmonitor : (Item.fixture .monitorDir).IsCounted c.settings.roundWorkers := trivial
    have hleft := (name_mem_leavings (Nat.le_add_left 1 done) hmonitor rfl).1 hmem
    simp [leavings] at hleft
  have hgone : ∀ f : Fixture, Item.fixture f ∈ leavings (done + 1) c.settings.roundWorkers →
      c.grounds place look w ["active_runs", f.name] = none :=
    fun f hf => congrFun (hrotated.gone _ hf) []
  refine ⟨htidy.rotated hrotated hq hlaid huntil rfl hlasting,
    .inr (hgone .seeds (by simp [leavings])), .inr (hgone .tasks (by simp [leavings])), ?_⟩
  intro name content
  have hlater : ¬ done + 2 = 1 := by omega
  rw [seedSource, if_neg hlater, Offered, if_neg hlater, hasFile_monitorQueue h, hqueue,
    ← hasFile_monitorQueue h, huntil]
  constructor
  · intro hfile
    exact ⟨p, rfl, hfile⟩
  · rintro ⟨p', heq, hfile⟩
    cases heq
    exact hfile

/-- Staging, whatever is left of the round before. -/
theorem staged_of_ready {p p' : Progress σ} (hround : 1 ≤ round)
    (hready : c.Ready crew place look world round p)
    (huntil : c.untilRound crew round (c.start world) = (.ok (), p)) {v : Unit}
    (hok : c.stage crew round p = (.ok v, p')) :
    c.Tidy crew place look world (round - 1) (c.grounds place look p'.world) ∧
      (c.grounds place look p'.world).below ["active_runs", "tasks"] = folder [] ∧
      ∃ names contents,
        c.Staged crew place look world round names contents (c.grounds place look p'.world) := by
  have hrest : ∀ q : Progress σ, c.Cleared crew place look world round q.world → (do
      (onWorld (crew.files.createDirectories c.settings.layout.tasks)).orFail
        (.io c.settings.layout.tasks)
      let _ ← (onWorld (stageSeeds crew.files (c.seedSource round) c.settings.layout.seeds
        round)).orFail .staging : Step σ Unit) q = (.ok v, p') →
      c.Tidy crew place look world (round - 1) (c.grounds place look p'.world) ∧
        (c.grounds place look p'.world).below ["active_runs", "tasks"] = folder [] ∧
        ∃ names contents,
          c.Staged crew place look world round names contents (c.grounds place look p'.world) := by
    intro q hcleared hok
    obtain ⟨_, q₁, hcreate, hok⟩ := bind_eq_ok hok
    obtain ⟨w₁, htasks, rfl⟩ := orFail_onWorld_ok hcreate
    obtain ⟨count, q₂, hseeds, hpure⟩ := bind_eq_ok hok
    obtain ⟨w₂, hstage, rfl⟩ := orFail_onWorld_ok hseeds
    cases hpure
    exact staged_of_cleared h hround hcleared htasks hstage
  rw [stage] at hok
  split at hok
  · next hlater =>
    obtain ⟨path, q, hrotate, hok⟩ := bind_eq_ok hok
    obtain ⟨w, hrotated, rfl⟩ := orFail_onWorld_ok hrotate
    obtain ⟨done, rfl⟩ : ∃ done, round = done + 2 := ⟨round - 2, by omega⟩
    rw [Nat.add_succ_sub_one] at hrotated
    exact hrest _ (hready.cleared_later h huntil hrotated) hok
  · next hfirst =>
    obtain rfl : round = 1 := by omega
    exact hrest _ (hready.cleared_first h) hok

/-! ## The work for a round -/

/-- Writing the graph of a round completes what the round needs. -/
theorem laid_of_dumpGraph {p p' : Progress σ}
    (htidy : c.Tidy crew place look world done (c.grounds place look p.world))
    (hstaged : ∃ names contents,
      c.Staged crew place look world round names contents (c.grounds place look p.world))
    (hfirst : round = 1 →
      (c.grounds place look p.world).below ["active_runs", "tasks"] = folder [])
    (hlater : 2 ≤ round → ∃ q plan, c.untilCut crew round (c.start world) = (.ok (), q) ∧
      c.cut q.survey.graph = (.ok plan, p.survey.graph) ∧
      (c.grounds place look p.world).below ["active_runs", "tasks"] =
        folder (plan.files p.survey.graph))
    {v : Unit} (hok : c.dumpGraph crew p = (.ok v, p')) :
    c.Laid crew place look world round p' ∧
      c.Tidy crew place look world done (c.grounds place look p'.world) := by
  obtain ⟨hsurvey, hgrounds⟩ := grounds_dumpGraph h hok
  have hspares : Spares (fun name => name = "callgraph.dot" ∨ name = "callgraph.json")
      (c.grounds place look p.world) (c.grounds place look p'.world) := by
    rw [hgrounds]
    exact ((spares_put _ "callgraph.dot" [] _).mono fun _ => .inl).trans
      ((spares_put _ "callgraph.json" [] _).mono fun _ => .inr)
  obtain ⟨names, contents, hstaged⟩ := hstaged
  have htasks : (c.grounds place look p'.world).below ["active_runs", "tasks"] = _ :=
    hspares.below_eq (by decide)
  refine ⟨⟨⟨names, contents, hstaged.congr (hspares.below_eq (by decide))⟩, ?_, ?_, ?_, ?_⟩,
    htidy.of_spares hspares⟩
  · intro hround
    exact htasks.trans (hfirst hround)
  · intro hround
    obtain ⟨q, plan, hq, hcut, hplan⟩ := hlater hround
    rw [hsurvey]
    exact ⟨q, plan, hq, hcut, htasks.trans hplan⟩
  · rw [hgrounds, hsurvey, put_of_ne (by decide)]
    exact Function.update_self ..
  · rw [hgrounds, hsurvey]
    exact Function.update_self ..

/-- When a round has found what it needs, it puts everything into place. -/
theorem laid_of_ready (hround : 1 ≤ round)
    (hready : ∀ p, c.untilRound crew round (c.start world) = (.ok (), p) →
      c.Ready crew place look world round p) {p : Progress σ}
    (hok : c.untilLaunch crew round (c.start world) = (.ok (), p)) :
    c.Laid crew place look world round p ∧
      c.Tidy crew place look world (round - 1) (c.grounds place look p.world) := by
  obtain ⟨_, p₁, hpass, hchart⟩ := bind_eq_ok hok
  obtain ⟨_, p₀, huntil, hstage⟩ := bind_eq_ok hpass
  obtain ⟨htidy, htasks, names, contents, hstaged⟩ :=
    staged_of_ready h hround (hready p₀ huntil) huntil hstage
  by_cases hone : round = 1
  · subst hone
    exact laid_of_dumpGraph h htidy ⟨names, contents, hstaged⟩ (fun _ => htasks)
      (fun hlater => absurd hlater (by decide)) hchart
  · rw [phaseOf, if_neg hone] at hchart
    obtain ⟨_, q, hrefresh, hchart⟩ := bind_eq_ok hchart
    obtain ⟨_, q', hpartition, hdump⟩ := bind_eq_ok hchart
    have hcut : c.untilCut crew round (c.start world) = (.ok (), q) := by
      rw [c.untilCut_eq crew, bind_of_ok_apply hpass, hrefresh]
    have hfleet := spares_refresh h hrefresh
    obtain ⟨plan, hplan, hgraph, hgrounds⟩ := grounds_partition h hpartition
    have htaskFiles : Spares (· = "tasks") (c.grounds place look q.world)
        (c.grounds place look q'.world) := by
      rw [hgrounds]
      exact spares_putAll _ _ _
    have hempty : (c.grounds place look q.world).below ["active_runs", "tasks"] = folder [] :=
      (below_fixture hfleet .tasks id).trans htasks
    refine laid_of_dumpGraph h ((htidy.of_spares hfleet).of_spares htaskFiles)
      ⟨names, contents, (hstaged.congr (below_fixture hfleet .seeds id)).congr
        (htaskFiles.below_eq (by decide))⟩
      (fun hfirst => absurd hfirst hone) (fun _ => ⟨q, plan, hcut, ?_, ?_⟩) hdump
    · rw [hgraph, ← hplan]
    · rw [hgrounds]
      exact below_putAll hempty (plan.nodup_files _)

/-! ## The first round begins -/

/-- The directories of a campaign are created where nothing was before. -/
theorem opened_of_create (habsent : look world (place c.settings.layout.outDir) = none) {w : σ}
    {v : Unit} (hok : c.settings.layout.create crew.files world = (.ok v, w)) :
    c.Tidy crew place look world 0 (c.grounds place look w) ∧
      (∀ name ∈ ["seeds_origin", "seeds", "tasks"],
        (c.grounds place look w).below ["active_runs", name] = folder []) ∧
      ∀ dir name content, (look w).HasFile dir name content ↔
        (look world).HasFile dir name content := by
  obtain ⟨_, w₁, horigin, hok⟩ := bind_eq_ok hok
  obtain ⟨_, w₂, hseeds, htasks⟩ := bind_eq_ok hok
  -- the first directory is created with all that is above it
  have hnothing : c.grounds place look world = fun _ => none :=
    funext fun rest => (h.obeys.isTree world).eq_none habsent rest
  have hgrounds₁ : c.grounds place look w₁ = _ :=
    grounds_createDirectories h (f := .seedsOrigin) horigin
  rw [hnothing] at hgrounds₁
  have htidy₁ : c.Tidy crew place look world 0 (c.grounds place look w₁) := by
    rw [hgrounds₁]
    refine ⟨by decide, ?_, fun round hround hdone => absurd hround (by omega)⟩
    intro name rest hname
    left
    by_contra hactive
    simp [opened, hactive] at hname
  have hfolder₁ : (c.grounds place look w₁).below ["active_runs", "seeds_origin"] = folder [] := by
    rw [hgrounds₁]
    refine below_eq_folder_iff.2 ⟨by decide, ?_, ?_⟩
    · intro name
      simp [opened, Fixture.name]
    · intro name next rest
      simp [opened, Fixture.name]
  -- the others are created inside of it
  have hgrounds₂ : c.grounds place look w₂ =
      (c.grounds place look w₁).opened ["active_runs", "seeds"] :=
    grounds_createDirectories h (f := .seeds) hseeds
  have hfolder₂ := (isTree_grounds h w₁).below_opened
    (.inr (show c.grounds place look w₁ ["active_runs", "seeds"] = none by
      rw [hgrounds₁]
      decide))
  have hspares₂ := spares_opened (isTree_grounds h w₁) htidy₁.active "seeds" []
  rw [← hgrounds₂] at hfolder₂ hspares₂
  have hgrounds₃ : c.grounds place look w =
      (c.grounds place look w₂).opened ["active_runs", "tasks"] :=
    grounds_createDirectories h (f := .tasks) htasks
  have hfolder₃ := (isTree_grounds h w₂).below_opened
    (.inr (show c.grounds place look w₂ ["active_runs", "tasks"] = none by
      rw [hgrounds₂, hgrounds₁]
      decide))
  have hspares₃ := spares_opened (isTree_grounds h w₂) (htidy₁.of_spares hspares₂).active
    "tasks" []
  rw [← hgrounds₃] at hfolder₃ hspares₃
  refine ⟨(htidy₁.of_spares hspares₂).of_spares hspares₃, ?_, ?_⟩
  · simp only [List.forall_mem_cons, List.not_mem_nil, false_implies, implies_true, and_true]
    exact ⟨(hspares₃.below_eq (by decide)).trans ((hspares₂.below_eq (by decide)).trans hfolder₁),
      (hspares₃.below_eq (by decide)).trans hfolder₂, hfolder₃⟩
  · intro dir name content
    rw [h.obeys.createDirectories _ _ _ _ htasks, hasFile_opened,
      h.obeys.createDirectories _ _ _ _ hseeds, hasFile_opened,
      h.obeys.createDirectories _ _ _ _ horigin, hasFile_opened]

/-- The first round finds a copy of the corpus, and nothing else. -/
theorem ready_first (habsent : look world (place c.settings.layout.outDir) = none)
    {p : Progress σ} (hok : c.untilRound crew 1 (c.start world) = (.ok (), p)) :
    c.Ready crew place look world 1 p := by
  obtain ⟨_, p₁, hprepare, hok⟩ := bind_eq_ok hok
  obtain ⟨_, p₂, hmonitor, hrounds⟩ := bind_eq_ok hok
  cases hrounds
  obtain ⟨_, q, hprune, hprepare⟩ := bind_eq_ok hprepare
  cases hprune
  obtain ⟨_, q', hcreate, hprepare⟩ := bind_eq_ok hprepare
  obtain ⟨w, hdirs, rfl⟩ := orFail_onWorld_ok hcreate
  obtain ⟨count, q'', himport, hpure⟩ := bind_eq_ok hprepare
  obtain ⟨w', hcorpus, rfl⟩ := orFail_onWorld_ok himport
  cases hpure
  obtain ⟨htidy, hfolders, hsame⟩ := opened_of_create h habsent hdirs
  -- the corpus is copied
  have horigin : place c.settings.layout.seedsOrigin =
      place c.settings.layout.outDir ++ ["active_runs", "seeds_origin"] :=
    place_fixture h .seedsOrigin
  have hempty : (look w).below (place c.settings.layout.seedsOrigin) = folder [] := by
    rw [horigin, ← below_below]
    exact hfolders "seeds_origin" (by simp)
  obtain ⟨hfiles, imported, hput⟩ := look_importCorpus h.obeys hempty hcorpus
  have hspares : Spares (· = "seeds_origin") (c.grounds place look w)
      (c.grounds place look w') := by
    rw [grounds, grounds, hput, horigin, putAll_below]
    exact spares_putAll _ _ _
  -- then the monitor is launched
  have hfleet := spares_launchMonitor h hmonitor
  refine ⟨(htidy.of_spares hspares).of_spares hfleet, fun _ => ?_, fun _ => ?_, fun _ => ?_,
    fun hlater => absurd hlater (by decide)⟩
  · exact (below_fixture hfleet .seeds id).trans
      ((hspares.below_eq (by decide)).trans (hfolders "seeds" (by simp)))
  · exact (below_fixture hfleet .tasks id).trans
      ((hspares.below_eq (by decide)).trans (hfolders "tasks" (by simp)))
  · intro name content
    rw [← hsame, ← hfiles, horigin, ← hasFile_below]
    exact hasFile_congr (below_fixture hfleet .seedsOrigin id)

/-! ## Every round -/

/-- What a round finds when it begins. -/
theorem ready_of_untilRound (habsent : look world (place c.settings.layout.outDir) = none)
    (hround : 1 ≤ round) (hfits : round ≤ 4294967296) {p : Progress σ}
    (hok : c.untilRound crew round (c.start world) = (.ok (), p)) :
    c.Ready crew place look world round p := by
  induction round, hround using Nat.le_induction generalizing p with
  | base => exact ready_first h habsent hok
  | succ round hround ih =>
    obtain ⟨q, q', hlaunch, hwatch, hworld⟩ := c.exists_untilLaunch crew hround hfits hok
    obtain ⟨hlaid, htidy⟩ := laid_of_ready h hround (fun _ => ih (Nat.le_of_succ_le hfits)) hlaunch
    -- while the round is watched only the fleet writes
    have hfleet := spares_watch h hround hwatch
    rw [hworld] at hfleet
    refine ⟨htidy.of_spares hfleet, fun hone => ?_, fun hone => ?_, fun hone => ?_,
      fun _ => ⟨q, hlaunch, hlaid, lasting_of_spares hround hfleet⟩⟩ <;> omega

variable (c crew place look world) in
/-- What is found when the workers of a round are launched. -/
structure KeptApart (round : Nat) (p : Progress σ) : Prop where
  /-- This is the point from which on the workers are watched. -/
  rest : c.drive crew (c.start world) = (do
    c.watch crew round (phaseOf round)
    finishRound
    c.runRounds crew (c.totalRounds.toNat - round) : Step σ Unit) p
  /-- The directories of the fleet hold the work for this round. -/
  laid : c.Laid crew place look world round p
  /-- The backups hold what the rounds before it left behind when they ended. -/
  tidy : c.Tidy crew place look world (round - 1) (c.grounds place look p.world)
  /-- Nothing of any other round is found in a backup. -/
  filed : ∀ earlier, 1 ≤ earlier → earlier < round → ∀ item : Item,
    item.IsCounted c.settings.roundWorkers → item.shelf = ["active_runs"] →
    c.grounds place look p.world [(Item.backup earlier).name c.settings.roundWorkers,
      item.name c.settings.roundWorkers] ≠ none →
    item ∈ leavings earlier c.settings.roundWorkers

/-- The rounds of a campaign that starts with a new output directory are kept apart, whatever
the fleet writes into what is its own.  For this 32 bits have to count the rounds up to the one
behind the last. -/
theorem rounds_kept_apart (hfits : c.exploitationRounds + 2 < 4294967296)
    (habsent : look world (place c.settings.layout.outDir) = none)
    (hround : 1 ≤ round) (hlast : round ≤ 1 + c.exploitationRounds) {p : Progress σ}
    (hok : c.untilLaunch crew round (c.start world) = (.ok (), p)) :
    c.KeptApart crew place look world round p := by
  obtain ⟨hlaid, htidy⟩ :=
    laid_of_ready h hround (fun _ => ready_of_untilRound h habsent hround (by omega)) hok
  have htotal := c.toNat_totalRounds_of_lt (by omega)
  refine ⟨c.drive_of_untilLaunch crew hround (htotal ▸ hlast) hok, hlaid, htidy, ?_⟩
  intro earlier hpos hearlier item hitem hshelf hfound
  exact (htidy.archived earlier hpos (Nat.le_sub_one_of_lt hearlier)).mem_leavings hpos hitem hshelf
    hfound

end

/-- On a disk the second round of the brief campaign starts from the seed that the monitor has
found, and what the first round left behind is archived. -/
theorem rounds_kept_apart_brief :
    Disk.withCorpus.look brief.settings.layout.outDir.steps = none ∧
      ∃ p, brief.untilLaunch (Disk.crew brief) 2 (brief.start Disk.withCorpus) = (.ok (), p) ∧
        brief.KeptApart (Disk.crew brief) Path.steps Disk.look Disk.withCorpus 2 p := by
  have habsent : Disk.withCorpus.look brief.settings.layout.outDir.steps = none := by
    decide +kernel
  have hok : (brief.untilLaunch (Disk.crew brief) 2 (brief.start Disk.withCorpus)).1.isOk =
      true := by
    decide +kernel
  cases hlaunch : brief.untilLaunch (Disk.crew brief) 2 (brief.start Disk.withCorpus) with
  | mk answer p =>
    rw [hlaunch] at hok
    cases answer with
    | error e => cases hok
    | ok u =>
      exact ⟨habsent, p, rfl, rounds_kept_apart (Disk.undisturbed_crew brief) (by decide)
        habsent (Nat.le_add_left 1 1) (Nat.le_refl 2) hlaunch⟩

/-- What the last round of the longest campaign leaves behind: three seeds, of which the monitor
has found one anew. -/
def Disk.afterLast : Disk where
  entries :=
    [(["out", "active_runs", "seeds", "seed_3"], .file "seed".toUTF8),
     (["out", "active_runs", "seeds"], .directory),
     (["out", "active_runs", "monitor", "queue", "plain"], .file "plain".toUTF8),
     (["out", "active_runs", "monitor", "queue"], .directory),
     (["out", "active_runs", "monitor"], .directory),
     (["out", "active_runs"], .directory), (["out"], .directory), ([], .directory)]
  isTree := Disk.isTree_of_forall (by decide)

/-- Where the longest campaign stands behind its last round. -/
def afterLast : Progress Disk :=
  { unending.start Disk.afterLast with
    survey := ⟨unending.inputs.graph, { round := 4294967295, phase := .exploiting : CampaignState }.advance⟩ }

/-- In the longest campaign the count starts over, and then nothing is archived: a seed of the
last round stays among those of the next one, which are staged whether they are marked or not. -/
theorem mixed_afterLast :
    ((unending.loop (Disk.crew unending) 1 afterLast).2.world.look
      ["out", "backup_round_4294967295"]).isSome = false ∧
    ((unending.loop (Disk.crew unending) 1 afterLast).2.world.look
      ["out", "active_runs", "seeds", "seed_3"]).isSome = true ∧
    ((unending.loop (Disk.crew unending) 1 afterLast).2.world.look
      ["out", "active_runs", "seeds", "seed_1"]).isSome = true := by
  decide +kernel

end Campaign

end FuzzCampaign
