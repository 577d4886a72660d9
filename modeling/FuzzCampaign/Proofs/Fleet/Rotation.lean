import FuzzCampaign.Proofs.Campaign.Assignment
import FuzzCampaign.Proofs.Fleet.Addresses

/-!
# A round takes along what is its own

The commands of a fleet tell a round worker where to write: into a directory of its name in
the directory of the fleet, and into its log.  When the round is over these are moved
away, found again by recomputing the names.  Because no two names are equal, the rotation
of a round moves the directories and logs of the workers of the round, and of no others.

Main definitions:

- `Layout.TakesOwn`: what the rotation of a round moves, and what it does not touch.

Main results:

- `Layout.asks_moveAll` and `Layout.move_mem_moveAll`: moving items asks for nothing else,
  and leaves none of them out that is there.
- `Layout.own_places`: everything has a path of its own, and a rotation finds what the
  commands of the same round name.
-/

namespace FuzzCampaign

open FuzzCampaign.Action

/-! ## Where workers are told to write -/

/-- All round workers of a fleet write below its directory. -/
theorem optionValue?_outDir (f : Fleet) (phase : Phase) (index round : Nat) :
    optionValue? "-o" (f.roundWorker phase index round).args = some f.layout.activeRuns.text := by
  cases phase <;> simp only [Fleet.roundWorker, Fleet.scanning, Fleet.taskBound, Fleet.commonArgs]
    <;> cases f.fuzzer.dictionary <;> simp [optionValue?]

/-- A round worker is told its name. -/
theorem optionValue?_name (f : Fleet) (phase : Phase) (index round : Nat) :
    optionValue? "-S" (f.roundWorker phase index round).args =
      some (workerName index round f.roundWorkers) := by
  cases phase <;> simp only [Fleet.roundWorker, Fleet.scanning, Fleet.taskBound, Fleet.commonArgs]
    <;> cases f.fuzzer.dictionary <;> simp [optionValue?, Fleet.nameOf]

theorem logFile_roundWorker (f : Fleet) (phase : Phase) (index round : Nat) :
    (f.roundWorker phase index round).logFile =
      some (f.layout.workerLog (workerName index round f.roundWorkers)) := by
  cases phase <;> rfl

/-! ## Actions that ask for certain things only -/

namespace Action

variable {σ ε ε' α β : Type} {P : Request → Prop} {n : Noted σ}

/-- Every request of an action is of a certain kind, however the action ends. -/
def Asks (P : Request → Prop) (action : Action (Noted σ) ε α) (n : Noted σ) : Prop :=
  ∃ asked, (action n).2.requests = n.requests ++ asked ∧ ∀ request ∈ asked, P request

theorem Asks.nothing {action : Action (Noted σ) ε α} (h : (action n).2.requests = n.requests) :
    action.Asks P n :=
  ⟨[], by rw [h, List.append_nil], by simp⟩

theorem Asks.noted {action : Action σ ε α} {request : Except ε α → Request}
    (h : ∀ answer, P (request answer)) : (action.noted request).Asks P n :=
  ⟨[request (action n.world).1], rfl, by simpa using h _⟩

theorem Asks.orFail {action : Action (Noted σ) ε α} (h : action.Asks P n) (f : ε → ε') :
    (action.orFail f).Asks P n := by
  rw [Asks, orFail_apply]
  exact h

theorem Asks.bind {x : Action (Noted σ) ε α} {f : α → Action (Noted σ) ε β} (h : x.Asks P n)
    (h' : ∀ a n', x n = (.ok a, n') → (f a).Asks P n') : (x >>= f).Asks P n := by
  obtain ⟨front, hfront, hfrontKind⟩ := h
  rw [Asks, bind_apply]
  cases hx : x n with
  | mk result n' =>
    rw [hx] at hfront
    cases result with
    | error e => exact ⟨front, hfront, hfrontKind⟩
    | ok a =>
      obtain ⟨back, hback, hbackKind⟩ := h' a n' hx
      refine ⟨front ++ back, ?_, ?_⟩
      · rw [← List.append_assoc, ← hfront]
        exact hback
      · intro request hrequest
        exact (List.mem_append.1 hrequest).elim (hfrontKind request) (hbackKind request)

end Action

theorem requests_move {σ : Type} (files : FileSystem σ) {source target : Path} {n n' : Noted σ}
    {u : Unit} (h : files.noted.move source target n = (.ok u, n')) :
    n'.requests = n.requests ++ [.move source target (.ok ())] := by
  have hanswer : (files.move source target n.world).1 = .ok () := congrArg Prod.fst h
  have hrequests : n.requests ++ [.move source target (files.move source target n.world).1] =
      n'.requests := congrArg (fun r => r.2.requests) h
  rw [← hrequests, hanswer]

namespace Layout

section

variable {σ : Type} (files : FileSystem σ) (l : Layout) {workers : Nat} {target : Path}
  {items : List Item}

/-! ## What a rotation asks for -/

/-- Moving items asks for nothing but to move some of them, each under its own name. -/
theorem asks_moveAll (n : Noted σ) :
    (moveAll files.noted target (items.map (l.pathOf workers))).Asks (fun request =>
      ∃ item ∈ items, ∃ answer, request =
        .move (l.pathOf workers item) (target.join (item.name workers)) answer) n := by
  suffices h : ∀ rest ⊆ items, (moveAll files.noted target (rest.map (l.pathOf workers))).Asks
      (fun request => ∃ item ∈ items, ∃ answer, request =
        .move (l.pathOf workers item) (target.join (item.name workers)) answer) n from
    h items fun _ => id
  intro rest hrest
  induction rest generalizing n with
  | nil => exact .nothing rfl
  | cons item rest ih =>
    obtain ⟨hitem, hrest⟩ := List.cons_subset.1 hrest
    rw [moveAll_cons]
    refine .bind (.nothing rfl) ?_
    intro isPresent n' _
    split
    · refine .bind (.orFail (.noted fun answer => ⟨item, hitem, answer, rfl⟩) _) ?_
      intro _ n'' _
      exact ih n'' hrest
    · exact ih n' hrest

/-- Items that are there all the time are moved. -/
theorem move_mem_moveAll {n n' : Noted σ} {u : Unit}
    (h : moveAll files.noted target (items.map (l.pathOf workers)) n = (.ok u, n')) {item : Item}
    (hitem : item ∈ items) (hpresent : ∀ w, files.isPresent (l.pathOf workers item) w = true) :
    .move (l.pathOf workers item) (target.join (item.name workers)) (.ok ()) ∈ n'.requests := by
  induction items generalizing n with
  | nil => cases hitem
  | cons first rest ih =>
    rw [moveAll_cons] at h
    obtain ⟨isPresent, n₁, hobserve, h⟩ := bind_eq_ok h
    cases hobserve
    rcases List.mem_cons.1 hitem with rfl | hlater
    · rw [show files.noted.isPresent (l.pathOf workers item) n = true from hpresent n.world,
        if_pos rfl] at h
      obtain ⟨_, n₂, hmove, hrest⟩ := bind_eq_ok h
      have hfirst := requests_move files (orFail_eq_ok.1 hmove)
      obtain ⟨asked, hasked, -⟩ :
          Asks _ (moveAll files.noted target (rest.map (l.pathOf workers))) n₂ :=
        asks_moveAll files l n₂
      have hn' : n'.requests = n₂.requests ++ asked :=
        (congrArg (·.2.requests) hrest).symm.trans hasked
      rw [hn', hfirst]
      simp
    · split at h
      · obtain ⟨_, n₂, -, hrest⟩ := bind_eq_ok h
        exact ih hrest hlater
      · exact ih h hlater

/-! ## The rotation of a round -/

/-- What the rotation of a round moves: the directories and logs that the workers of the
round were told to write, and those of no other round. -/
structure TakesOwn (fuzzer : FuzzerSettings) (workers round : Nat) : Prop where
  /-- A round worker writes into the directory of its name and into its log. -/
  told : ∀ phase index other, ∃ name,
    ((Fleet.mk l fuzzer workers).roundWorker phase index other).name = name ∧
    optionValue? "-o" ((Fleet.mk l fuzzer workers).roundWorker phase index other).args =
      some l.activeRuns.text ∧
    optionValue? "-S" ((Fleet.mk l fuzzer workers).roundWorker phase index other).args =
      some name ∧
    ((Fleet.mk l fuzzer workers).roundWorker phase index other).logFile =
      some (l.workerLog name)
  /-- The directory of a round worker is moved when its round is over, and at no other
  time. -/
  dirs : ∀ phase index other, 1 ≤ index ∧ index ≤ workers → 1 ≤ other →
    (l.workerDir ((Fleet.mk l fuzzer workers).roundWorker phase index other).name ∈
      artifacts l round workers ↔ other = round)
  /-- The same for its log. -/
  logs : ∀ phase index other, 1 ≤ index ∧ index ≤ workers → 1 ≤ other →
    (l.workerLog ((Fleet.mk l fuzzer workers).roundWorker phase index other).name ∈
      artifacts l round workers ↔ other = round)
  /-- What the monitor writes and the operator's corpus stay. -/
  stays : ∀ f : Fixture, f = .monitorDir ∨ f = .monitorLog ∨ f = .seedsOrigin →
    l.fixturePath f ∉ artifacts l round workers
  /-- Nothing else is moved, and everything into the backup of the round. -/
  asks : ∀ n, (rotateArtifacts files.noted l round workers).Asks (fun request =>
    (∃ answer, request = .create (l.backupDir round) answer) ∨
      ∃ item ∈ leavings round workers, ∃ answer, request =
        .move (l.pathOf workers item) ((l.backupDir round).join (item.name workers)) answer) n
  /-- Nothing that is there is left out. -/
  thorough : ∀ n path n', rotateArtifacts files.noted l round workers n = (.ok path, n') →
    ∀ item ∈ leavings round workers,
      (∀ w, files.isPresent (l.pathOf workers item) w = true) →
      .move (l.pathOf workers item) ((l.backupDir round).join (item.name workers)) (.ok ()) ∈
        n'.requests

theorem asks_rotateArtifacts (round : Nat) (n : Noted σ) :
    (rotateArtifacts files.noted l round workers).Asks (fun request =>
      (∃ answer, request = .create (l.backupDir round) answer) ∨
        ∃ item ∈ leavings round workers, ∃ answer, request =
          .move (l.pathOf workers item) ((l.backupDir round).join (item.name workers)) answer)
      n := by
  rw [rotateArtifacts, artifacts_eq_map]
  refine .bind (.orFail (.noted fun answer => .inl ⟨answer, rfl⟩) _) ?_
  intro _ n' _
  refine .bind ?_ fun _ _ _ => .nothing rfl
  obtain ⟨asked, hasked, hmoves⟩ := asks_moveAll files l n'
  exact ⟨asked, hasked, fun request hrequest => .inr (hmoves request hrequest)⟩

theorem move_mem_rotateArtifacts {round : Nat} {n n' : Noted σ} {path : Path}
    (h : rotateArtifacts files.noted l round workers n = (.ok path, n')) {item : Item}
    (hitem : item ∈ leavings round workers)
    (hpresent : ∀ w, files.isPresent (l.pathOf workers item) w = true) :
    .move (l.pathOf workers item) ((l.backupDir round).join (item.name workers)) (.ok ()) ∈
      n'.requests := by
  rw [rotateArtifacts, artifacts_eq_map] at h
  obtain ⟨_, n₁, -, h⟩ := bind_eq_ok h
  obtain ⟨_, n₂, hmoves, hpure⟩ := bind_eq_ok h
  cases hpure
  exact move_mem_moveAll files l hmoves hitem hpresent

theorem takesOwn (fuzzer : FuzzerSettings) (workers : Nat) {round : Nat} (hround : 1 ≤ round) :
    TakesOwn files l fuzzer workers round where
  told phase index other :=
    ⟨_, Fleet.name_roundWorker _ phase index other, optionValue?_outDir _ phase index other,
      optionValue?_name _ phase index other, logFile_roundWorker _ phase index other⟩
  dirs phase index other hindex hother := by
    rw [Fleet.name_roundWorker]
    have hdir : (Item.workerDir index other).IsCounted workers := ⟨hindex, hother⟩
    exact (pathOf_mem_artifacts hround hdir).trans (workerDir_mem_leavings hindex)
  logs phase index other hindex hother := by
    rw [Fleet.name_roundWorker]
    have hlog : (Item.workerLog index other).IsCounted workers := ⟨hindex, hother⟩
    exact (pathOf_mem_artifacts hround hlog).trans (workerLog_mem_leavings hindex)
  stays f hf hmem := by
    have hfixture : (Item.fixture f).IsCounted workers := trivial
    have hleft := (pathOf_mem_artifacts hround hfixture).1 hmem
    rcases hf with rfl | rfl | rfl <;> simp [leavings] at hleft
  asks n := asks_rotateArtifacts files l round n
  thorough n path n' h item hitem hpresent := move_mem_rotateArtifacts files l h hitem hpresent

/-- Everything that a campaign keeps has a path of its own, however many rounds there are.
Therefore the rotation of a round takes along what the workers of the round were told to
write, and nothing that belongs to another round. -/
theorem own_places (fuzzer : FuzzerSettings) (workers : Nat) :
    (∀ i j r s, 1 ≤ i ∧ i ≤ workers → 1 ≤ j ∧ j ≤ workers → 1 ≤ r → 1 ≤ s →
      workerName i r workers = workerName j s workers → i = j ∧ r = s) ∧
    (∀ a b : Item, a.IsCounted workers → b.IsCounted workers →
      (l.pathOf workers a).steps = (l.pathOf workers b).steps → a = b) ∧
    ∀ round, 1 ≤ round → TakesOwn files l fuzzer workers round := by
  refine ⟨?_, ?_, ?_⟩
  · intro i j r s hi hj hr hs h
    exact workerName_injective hi hj hr hs h
  · intro a b ha hb h
    exact steps_pathOf_injective ha hb h
  · intro round hround
    exact takesOwn files l fuzzer workers hround

end

/-- With two workers a round, the first of the second round is not the second of the first,
and the rotation of the first round leaves its directory where it is. -/
theorem own_places_two :
    workerName 2 1 2 = "fuzzer_2" ∧ workerName 1 2 2 = "fuzzer_3" ∧
    workerName 2 1 2 ≠ workerName 1 2 2 ∧
    (Layout.pathOf ⟨⟨"out"⟩⟩ 2 (.workerLog 2 1)).steps ≠
      (Layout.pathOf ⟨⟨"out"⟩⟩ 2 (.fixture .monitorLog)).steps ∧
    Layout.workerDir ⟨⟨"out"⟩⟩ "fuzzer_2" ∈ artifacts ⟨⟨"out"⟩⟩ 1 2 ∧
    Layout.workerDir ⟨⟨"out"⟩⟩ "fuzzer_3" ∉ artifacts ⟨⟨"out"⟩⟩ 1 2 := by
  obtain ⟨hnames, hpaths, hrounds⟩ :=
    own_places Campaign.willing.files ⟨⟨"out"⟩⟩ Campaign.brief.settings.fuzzer 2
  have hdirs := (hrounds 1 (by decide)).dirs .scanning
  refine ⟨rfl, rfl, ?_, ?_, ?_, ?_⟩
  · intro h
    exact absurd (hnames 2 1 1 2 (by decide) (by decide) (by decide) (by decide) h).1 (by decide)
  · intro h
    have heq := hpaths (.workerLog 2 1) (.fixture .monitorLog) ⟨by decide, by decide⟩
      trivial h
    cases heq
  · exact (hdirs 2 1 (by decide) (by decide)).2 rfl
  · intro h
    exact absurd ((hdirs 1 2 (by decide) (by decide)).1 h) (by decide)

end Layout

end FuzzCampaign
