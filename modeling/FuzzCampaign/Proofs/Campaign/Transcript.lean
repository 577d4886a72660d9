import FuzzCampaign.Campaign.Run
import Mathlib.Data.List.Basic

/-!
# The transcript of a campaign

Everything that a campaign asks of its crew is written down, together with the
answer: launches, requests to stop a worker, pauses, profiling passes and the work
on files.  Looking whether a path leads anywhere changes nothing and cannot fail,
so it is left out.

A step follows a plan when it asks for what the plan says and goes on as long as
nothing fails.  When a request fails, the step ends there, with an error that
reports the failure; only requests to stop a worker may fail without consequences.
A step that ends with another error gave up by itself.

Main definitions:

- `Request`: a request to the crew, with its answer.
- `Deed`: what is asked for, unless it is work on files.
- `Crew.noted`: a crew that takes notes, and `Campaign.transcript`: its notes.
- `Action.Performs`: an action follows a plan.

Main results:

- `Action.Performs.bind`: one action after another follows one plan after another.
-/

namespace FuzzCampaign

/-! ## Requests -/

/-- A request to the crew, with its answer. -/
inductive Request where
  | launch (spec : WorkerSpec) (answer : Except WorkerError Worker)
  | terminate (worker : Worker) (answer : Except WorkerError Unit)
  | pause (millis : Nat) (completed : Bool)
  | profile (seeds : List Path) (answer : Except ProfileError ProfileOutput)
  | list (dir : Path) (answer : Except Fault (List String))
  | create (dir : Path) (answer : Except Fault Unit)
  | copy (source target : Path) (answer : Except Fault Unit)
  | move (source target : Path) (answer : Except Fault Unit)
  | write (file : Path) (text : String) (answer : Except Fault Unit)
  | read (file : Path) (answer : Except Fault String)

/-- What the launcher, the pacer, the profiler or a worker is asked for. -/
inductive Deed where
  | launch (spec : WorkerSpec)
  | terminate (worker : Worker)
  | pause (millis : Nat)
  | profile (seeds : List Path)
  deriving Repr, DecidableEq

namespace Request

/-- Whether a request failed or was interrupted.  A worker that could not be stopped
is no failure: the campaign goes on in any case. -/
def failed : Request → Bool
  | launch _ answer => !answer.isOk
  | terminate _ _ => false
  | pause _ completed => !completed
  | profile _ answer => !answer.isOk
  | list _ answer => !answer.isOk
  | create _ answer => !answer.isOk
  | copy _ _ answer => !answer.isOk
  | move _ _ answer => !answer.isOk
  | write _ _ answer => !answer.isOk
  | read _ answer => !answer.isOk

/-- What was asked for; `none` for work on files. -/
def deed? : Request → Option Deed
  | launch spec _ => some (.launch spec)
  | terminate worker _ => some (.terminate worker)
  | pause millis _ => some (.pause millis)
  | profile seeds _ => some (.profile seeds)
  | list _ _ => none
  | create _ _ => none
  | copy _ _ _ => none
  | move _ _ _ => none
  | write _ _ _ => none
  | read _ _ => none

/-- The worker that was launched, with what was asked for. -/
def launched? : Request → Option (WorkerSpec × Worker)
  | launch spec (.ok worker) => some (spec, worker)
  | _ => none

end Request

/-- The worker that is to be stopped. -/
def Deed.terminated? : Deed → Option Worker
  | terminate worker => some worker
  | _ => none

/-- What is to be launched. -/
def Deed.launch? : Deed → Option WorkerSpec
  | launch spec => some spec
  | _ => none

namespace Request

/-- What was asked for, besides work on files. -/
def deeds (requests : List Request) : List Deed := requests.filterMap deed?

/-- The workers that were launched, the earliest first. -/
def launched (requests : List Request) : List (WorkerSpec × Worker) :=
  requests.filterMap launched?

/-- The workers that were asked to stop, the earliest first. -/
def terminated (requests : List Request) : List Worker :=
  (deeds requests).filterMap Deed.terminated?

variable (front back : List Request)

/-- The deeds of two transcripts follow each other. -/
@[simp] theorem deeds_append : deeds (front ++ back) = deeds front ++ deeds back :=
  List.filterMap_append

/-- The launches of two transcripts follow each other. -/
@[simp] theorem launched_append : launched (front ++ back) = launched front ++ launched back :=
  List.filterMap_append

/-- The terminations of two transcripts follow each other. -/
@[simp] theorem terminated_append :
    terminated (front ++ back) = terminated front ++ terminated back := by
  simp [terminated]

variable {requests : List Request}

/-- A launch is a deed. -/
theorem launched_eq_nil (h : deeds requests = []) : launched requests = [] := by
  rw [deeds, List.filterMap_eq_nil_iff] at h
  rw [launched, List.filterMap_eq_nil_iff]
  intro request hrequest
  have hnone := h request hrequest
  cases request <;> simp_all [deed?, launched?]

/-- Where only the last request can fail, only the last launch can. -/
theorem map_fst_launched_prefix (h : ∀ request ∈ requests.dropLast, request.failed = false) :
    (launched requests).map (·.1) <+: (deeds requests).filterMap Deed.launch? := by
  induction requests with
  | nil => exact List.prefix_rfl
  | cons request rest ih =>
    cases rest with
    | nil =>
      cases request with
      | launch spec answer =>
        cases answer with
        | ok worker => exact List.prefix_rfl
        | error e => exact List.nil_prefix
      | _ => exact List.nil_prefix
    | cons next rest =>
      rw [List.dropLast_cons_cons, List.forall_mem_cons] at h
      have hrest := ih h.2
      cases request with
      | launch spec answer =>
        cases answer with
        | ok worker => exact List.cons_prefix_cons.2 ⟨rfl, hrest⟩
        | error e => exact absurd h.1 (by simp [failed, Except.isOk, Except.toBool])
      | _ => exact hrest

/-- Where no request fails, every launch gives a worker. -/
theorem map_fst_launched (h : ∀ request ∈ requests, request.failed = false) :
    (launched requests).map (·.1) = (deeds requests).filterMap Deed.launch? := by
  induction requests with
  | nil => rfl
  | cons request rest ih =>
    rw [List.forall_mem_cons] at h
    have hrest := ih h.2
    cases request with
    | launch spec answer =>
      cases answer with
      | ok worker => exact congrArg (spec :: ·) hrest
      | error e => exact absurd h.1 (by simp [failed, Except.isOk, Except.toBool])
    | _ => exact hrest

end Request

/-- Requests to stop workers, one for each of a list. -/
def Request.Dismisses (requests : List Request) (workers : List Worker) : Prop :=
  List.Forall₂ (fun request worker => ∃ answer, request = .terminate worker answer) requests workers

namespace Request.Dismisses

variable {requests : List Request} {workers : List Worker}

/-- Dismissing workers is terminating each of them, in their order. -/
theorem deeds_eq (h : Dismisses requests workers) :
    deeds requests = workers.map .terminate := by
  induction h with
  | nil => rfl
  | cons hrequest _ ih =>
    obtain ⟨answer, rfl⟩ := hrequest
    exact congrArg (_ :: ·) ih

/-- Exactly the dismissed workers are terminated. -/
theorem terminated_eq (h : Dismisses requests workers) : terminated requests = workers := by
  rw [terminated, h.deeds_eq, List.filterMap_map]
  exact List.filterMap_some

/-- A dismissal launches nobody. -/
theorem launched_eq (h : Dismisses requests workers) : launched requests = [] := by
  induction h with
  | nil => rfl
  | cons hrequest _ ih =>
    obtain ⟨answer, rfl⟩ := hrequest
    exact ih

/-- A dismissal holds nothing but terminations. -/
theorem exists_eq (h : Dismisses requests workers) {request : Request}
    (hrequest : request ∈ requests) : ∃ worker answer, request = .terminate worker answer := by
  induction h with
  | nil => cases hrequest
  | cons hfirst _ ih =>
    obtain ⟨answer, rfl⟩ := hfirst
    rcases List.mem_cons.1 hrequest with rfl | hrest
    · exact ⟨_, _, rfl⟩
    · exact ih hrest

/-- A request to stop a worker never counts as failed. -/
theorem clean (h : Dismisses requests workers) : ∀ request ∈ requests, request.failed = false := by
  intro request hrequest
  obtain ⟨worker, answer, rfl⟩ := h.exists_eq hrequest
  rfl

end Request.Dismisses

/-! ## A crew that takes notes -/

/-- A world with the requests that were made in it. -/
structure Noted (σ : Type) where
  world : σ
  requests : List Request := []

/-- Write down what was asked and answered. -/
def Action.noted {σ ε α : Type} (action : Action σ ε α) (request : Except ε α → Request) :
    Action (Noted σ) ε α := fun n =>
  let (answer, world) := action n.world
  (answer, ⟨world, n.requests ++ [request answer]⟩)

/-- A file system that takes notes. -/
def FileSystem.noted {σ : Type} (files : FileSystem σ) : FileSystem (Noted σ) where
  isDirectory path n := files.isDirectory path n.world
  isFile path n := files.isFile path n.world
  isPresent path n := files.isPresent path n.world
  entryNames dir := (files.entryNames dir).noted (.list dir)
  createDirectories dir := (files.createDirectories dir).noted (.create dir)
  copy source target := (files.copy source target).noted (.copy source target)
  move source target := (files.move source target).noted (.move source target)
  writeText file text := (files.writeText file text).noted (.write file text)
  readText file := (files.readText file).noted (.read file)

/-- A crew that takes notes. -/
def Crew.noted {σ : Type} (crew : Crew σ) : Crew (Noted σ) where
  files := crew.files.noted
  launch spec := (crew.launch spec).noted (.launch spec)
  terminate worker := (crew.terminate worker).noted (.terminate worker)
  pause millis n :=
    let (completed, world) := crew.pause millis n.world
    (completed, ⟨world, n.requests ++ [.pause millis completed]⟩)
  profile seeds := (crew.profile seeds).noted (.profile seeds)

/-- The noting crew launches as the crew does and writes the launch down. -/
theorem Crew.launch_noted {σ : Type} (crew : Crew σ) (spec : WorkerSpec) (n : Noted σ) :
    crew.noted.launch spec n = ((crew.launch spec n.world).1,
      ⟨(crew.launch spec n.world).2,
        n.requests ++ [.launch spec (crew.launch spec n.world).1]⟩) := rfl

/-- The requests that were made so far. -/
def Progress.requests {σ : Type} (p : Progress (Noted σ)) : List Request := p.world.requests

/-- Run a campaign with a crew that takes notes. -/
def Campaign.notedRun {σ : Type} (c : Campaign) (crew : Crew σ) (world : σ) :
    Except CampaignError CampaignSummary × Progress (Noted σ) :=
  c.run crew.noted { world := world }

/-- Everything that a campaign asks of its crew. -/
def Campaign.transcript {σ : Type} (c : Campaign) (crew : Crew σ) (world : σ) : List Request :=
  (c.notedRun crew world).2.requests

/-! ## Following a plan -/

/-- Requests follow a plan: nothing is asked for after a failure; all deeds are those
of the plan, in its order; and an error is a fault exactly when a request failed. -/
structure Follows {ε α : Type} (fault : ε → Prop) (plan : List Deed) (result : Except ε α)
    (asked : List Request) : Prop where
  steady : ∀ request ∈ asked.dropLast, request.failed = false
  deeds_prefix : Request.deeds asked <+: plan
  done : ∀ a, result = .ok a →
    (∀ request ∈ asked, request.failed = false) ∧ Request.deeds asked = plan
  blame : ∀ e, result = .error e → (fault e ↔ ∃ request ∈ asked, request.failed = true)

namespace Follows

variable {ε α β : Type} {fault : ε → Prop} {plan plan' : List Deed}

/-- Asking for nothing follows the empty plan. -/
theorem nil (fault : ε → Prop) (a : α) : Follows fault [] (.ok a) [] := by
  refine ⟨by simp, List.prefix_rfl, ?_, ?_⟩
  · simp [Request.deeds]
  · intro e he
    cases he

/-- Giving up at once follows any plan. -/
theorem giveUp {e : ε} (plan : List Deed) (he : ¬ fault e) :
    Follows fault plan (.error e : Except ε α) [] := by
  refine ⟨by simp, List.nil_prefix, ?_, ?_⟩
  · intro a ha
    cases ha
  · intro e' he'
    cases he'
    simpa using he

/-- A single request, which fails exactly when the result is an error. -/
theorem single {request : Request} {result : Except ε α} (hdeed : Request.deeds [request] = plan)
    (hfailed : request.failed = !result.isOk) (hfault : ∀ e, result = .error e → fault e) :
    Follows fault plan result [request] := by
  refine ⟨by simp, hdeed ▸ List.prefix_rfl, ?_, ?_⟩
  · rintro a rfl
    exact ⟨by simp [hfailed, Except.isOk, Except.toBool], hdeed⟩
  · rintro e rfl
    simp [hfailed, hfault e rfl, Except.isOk, Except.toBool]

/-- Stopping workers. -/
theorem dismissal {workers : List Worker} {asked : List Request}
    (h : Request.Dismisses asked workers) (fault : ε → Prop) (a : α) :
    Follows fault (workers.map .terminate) (.ok a) asked := by
  refine ⟨fun request hrequest => h.clean request (List.dropLast_subset _ hrequest),
    h.deeds_eq ▸ List.prefix_rfl, ?_, ?_⟩
  · intro _ _
    exact ⟨h.clean, h.deeds_eq⟩
  · intro e he
    cases he

/-- What follows on a completed plan follows the longer plan. -/
theorem append {a : α} {result : Except ε β} {front back : List Request}
    (h : Follows fault plan (.ok a) front) (h' : Follows fault plan' result back) :
    Follows fault (plan ++ plan') result (front ++ back) := by
  obtain ⟨hclean, hdeeds⟩ := h.done a rfl
  refine ⟨?_, ?_, ?_, ?_⟩
  · intro request hrequest
    by_cases hback : back = []
    · rw [hback, List.append_nil] at hrequest
      exact h.steady request hrequest
    · rw [List.dropLast_append_of_ne_nil hback, List.mem_append] at hrequest
      exact hrequest.elim (hclean request) (h'.steady request)
  · rw [Request.deeds_append, hdeeds]
    exact (List.prefix_append_right_inj plan).2 h'.deeds_prefix
  · intro b hb
    obtain ⟨hclean', hdeeds'⟩ := h'.done b hb
    refine ⟨?_, by rw [Request.deeds_append, hdeeds, hdeeds']⟩
    exact fun request hrequest =>
      (List.mem_append.1 hrequest).elim (hclean request) (hclean' request)
  · intro e he
    rw [h'.blame e he]
    constructor
    · rintro ⟨request, hrequest, hfailed⟩
      exact ⟨request, List.mem_append_right _ hrequest, hfailed⟩
    · rintro ⟨request, hrequest, hfailed⟩
      rcases List.mem_append.1 hrequest with hfront | hback
      · rw [hclean request hfront] at hfailed
        cases hfailed
      · exact ⟨request, hback, hfailed⟩

/-- After a failure the rest of a plan does not matter. -/
theorem error {e : ε} {asked : List Request} (h : Follows fault plan (.error e : Except ε α) asked)
    (plan' : List Deed) : Follows fault (plan ++ plan') (.error e : Except ε β) asked := by
  refine ⟨h.steady, h.deeds_prefix.trans (List.prefix_append _ _), ?_, ?_⟩
  · intro b hb
    cases hb
  · intro e' he'
    cases he'
    exact h.blame e rfl

end Follows

namespace Action

variable {σ τ ε ε' α β : Type}

/-- The second action starts where the first one ended, unless that one failed. -/
theorem bind_apply (x : Action τ ε α) (f : α → Action τ ε β) (t : τ) :
    (x >>= f) t = match x t with
      | (.ok a, t') => f a t'
      | (.error e, t') => (.error e, t') := by
  simp only [bind, ExceptT.bind, ExceptT.mk, ExceptT.bindCont, StateT.bind]
  cases x t with
  | mk result t' => cases result <;> rfl

/-- After a success the second action goes on. -/
theorem bind_of_ok_apply {x : Action τ ε α} {a : α} {t t' : τ} (h : x t = (.ok a, t'))
    {f : α → Action τ ε β} : (x >>= f) t = f a t' := by
  rw [bind_apply, h]

/-- Actions that do the same may stand for each other in front of a third. -/
theorem bind_congr_apply {x x' : Action τ ε α} {t t' : τ} (h : x t = x' t')
    {f : α → Action τ ε β} : (x >>= f) t = (x' >>= f) t' := by
  rw [bind_apply, bind_apply, h]

/-- A sequence that succeeds is made of two successes. -/
theorem bind_eq_ok {x : Action τ ε α} {f : α → Action τ ε β} {b : β} {t t'' : τ}
    (h : (x >>= f) t = (.ok b, t'')) : ∃ a t', x t = (.ok a, t') ∧ f a t' = (.ok b, t'') := by
  rw [bind_apply] at h
  cases hx : x t with
  | mk result t' =>
    rw [hx] at h
    cases result with
    | ok a => exact ⟨a, t', rfl, h⟩
    | error e => cases h

/-- A sequence that fails failed in its first action, or after a success of it in the second. -/
theorem bind_fst_eq_error {x : Action τ ε α} {f : α → Action τ ε β} {e : ε} {t : τ}
    (h : ((x >>= f) t).1 = .error e) :
    (x t).1 = .error e ∨ ∃ a t', x t = (.ok a, t') ∧ (f a t').1 = .error e := by
  rw [bind_apply] at h
  cases hx : x t with
  | mk result t' =>
    rw [hx] at h
    cases result with
    | error e' => exact Or.inl (congrArg Except.error (Except.error.inj h))
    | ok a => exact Or.inr ⟨a, t', rfl, h⟩

/-- A renamed error changes nothing else. -/
theorem orFail_apply (action : Action τ ε α) (f : ε → ε') (t : τ) :
    action.orFail f t = ((action t).1.mapError f, (action t).2) := by
  rw [Action.orFail]
  split <;> simp_all [Except.mapError]

/-- Renaming errors neither makes nor breaks a success. -/
theorem orFail_eq_ok {action : Action τ ε α} {f : ε → ε'} {a : α} {t t' : τ} :
    action.orFail f t = (.ok a, t') ↔ action t = (.ok a, t') := by
  rw [orFail_apply]
  cases action t with
  | mk result t'' =>
    cases result with
    | ok b =>
      constructor
      · intro h
        cases h
        rfl
      · intro h
        cases h
        rfl
    | error e =>
      constructor
      · intro h
        cases h
      · intro h
        cases h

/-- A renamed error stands for an error of the action. -/
theorem orFail_fst_eq_error {action : Action τ ε α} {f : ε → ε'} {e : ε'} {t : τ}
    (h : (action.orFail f t).1 = .error e) :
    ∃ fault, (action t).1 = .error fault ∧ f fault = e := by
  rw [orFail_apply] at h
  cases hx : (action t).1 with
  | error fault =>
    rw [hx] at h
    cases h
    exact ⟨fault, rfl, rfl⟩
  | ok a =>
    rw [hx] at h
    cases h

/-- From a state on, an action follows a plan; `log` tells which requests were made. -/
def Performs (log : τ → List Request) (fault : ε → Prop) (plan : List Deed) (action : Action τ ε α)
    (t : τ) : Prop :=
  ∃ asked, log (action t).2 = log t ++ asked ∧ Follows fault plan (action t).1 asked

namespace Performs

variable {log : τ → List Request} {fault : ε → Prop} {plan plan' : List Deed} {t : τ}

/-- Actions that do the same perform the same plan. -/
theorem congr {action action' : Action τ ε α} (happly : action t = action' t)
    (h : action.Performs log fault plan t) : action'.Performs log fault plan t := by
  rw [Performs] at h ⊢
  rwa [happly] at h

/-- An action that succeeds without a request does nothing. -/
theorem idle {action : Action τ ε α} {a : α} (hresult : (action t).1 = .ok a)
    (hlog : log (action t).2 = log t) : action.Performs log fault [] t := by
  refine ⟨[], by rw [hlog, List.append_nil], ?_⟩
  rw [hresult]
  exact .nil fault a

/-- An action that gives up without a request. -/
theorem giveUp {action : Action τ ε α} {e : ε} (hresult : (action t).1 = .error e)
    (hlog : log (action t).2 = log t) (he : ¬ fault e) :
    action.Performs log fault plan t := by
  refine ⟨[], by rw [hlog, List.append_nil], ?_⟩
  rw [hresult]
  exact .giveUp plan he

/-- A change of the state that no request shows in performs nothing. -/
theorem modify {f : τ → τ} (h : log (f t) = log t) :
    (modify f : Action τ ε PUnit).Performs log fault [] t := .idle (a := PUnit.unit) rfl h

/-- Replacing the state by one with the same requests performs nothing. -/
theorem set {t' : τ} (h : log t' = log t) :
    (set t' : Action τ ε PUnit).Performs log fault [] t := .idle (a := PUnit.unit) rfl h

/-- Reading the state performs nothing. -/
theorem get_bind {f : τ → Action τ ε β} (h : (f t).Performs log fault plan t) :
    (get >>= f).Performs log fault plan t := h

/-- After a success the plan of the second action is added. -/
theorem bind_of_ok {x : Action τ ε α} {f : α → Action τ ε β} {a : α} {t' : τ}
    (h : x.Performs log fault plan t) (hx : x t = (.ok a, t'))
    (h' : (f a).Performs log fault plan' t') :
    (x >>= f).Performs log fault (plan ++ plan') t := by
  obtain ⟨front, hfront, hfollows⟩ := h
  obtain ⟨back, hback, hfollows'⟩ := h'
  rw [hx] at hfront hfollows
  refine ⟨front ++ back, ?_, ?_⟩
  · rw [bind_of_ok_apply hx, ← List.append_assoc, ← hfront]
    exact hback
  · rw [bind_of_ok_apply hx]
    exact hfollows.append hfollows'

/-- After a failure the second action performs none of its plan. -/
theorem bind_of_error {x : Action τ ε α} {e : ε} {t' : τ} (h : x.Performs log fault plan t)
    (hx : x t = (.error e, t')) (f : α → Action τ ε β) (plan' : List Deed) :
    (x >>= f).Performs log fault (plan ++ plan') t := by
  obtain ⟨front, hfront, hfollows⟩ := h
  rw [hx] at hfront hfollows
  refine ⟨front, ?_, ?_⟩
  · rw [bind_apply, hx]
    exact hfront
  · rw [bind_apply, hx]
    exact hfollows.error plan'

/-- Plans of consecutive actions follow each other. -/
theorem bind {x : Action τ ε α} {f : α → Action τ ε β} (h : x.Performs log fault plan t)
    (h' : ∀ a t', x t = (.ok a, t') → (f a).Performs log fault plan' t') :
    (x >>= f).Performs log fault (plan ++ plan') t := by
  cases hx : x t with
  | mk result t' =>
    cases result with
    | ok a => exact h.bind_of_ok hx (h' a t' hx)
    | error e => exact h.bind_of_error hx f plan'

/-- The second plan may depend on how the first action went.  If that one fails, any
plan will do for the rest. -/
theorem bind_exists {ι : Type} {x : Action τ ε α} (h : x.Performs log fault plan t)
    (good : ι → Prop) (plan' : ι → List Deed) (post : ι → β → τ → Prop)
    (f : α → Action τ ε β) (hgood : ∃ i, good i)
    (h' : ∀ a t', x t = (.ok a, t') → ∃ i, good i ∧ (f a).Performs log fault (plan' i) t' ∧
      ∀ b t'', f a t' = (.ok b, t'') → post i b t'') :
    ∃ i, good i ∧ (x >>= f).Performs log fault (plan ++ plan' i) t ∧
      ∀ b t'', (x >>= f) t = (.ok b, t'') → post i b t'' := by
  cases hx : x t with
  | mk result t' =>
    cases result with
    | ok a =>
      obtain ⟨i, hi, hperforms, hpost⟩ := h' a t' hx
      refine ⟨i, hi, h.bind_of_ok hx hperforms, ?_⟩
      intro b t'' hbind
      rw [bind_of_ok_apply hx] at hbind
      exact hpost b t'' hbind
    | error e =>
      obtain ⟨i, hi⟩ := hgood
      refine ⟨i, hi, h.bind_of_error hx f (plan' i), ?_⟩
      intro b t'' hbind
      rw [bind_apply, hx] at hbind
      cases hbind

/-- Work on files does not add to a plan. -/
theorem after_idle {x : Action τ ε α} {f : α → Action τ ε β} (h : x.Performs log fault [] t)
    (h' : ∀ a t', x t = (.ok a, t') → (f a).Performs log fault plan t') :
    (x >>= f).Performs log fault plan t :=
  h.bind h'

/-- What comes after may be without deeds. -/
theorem before_idle {x : Action τ ε α} {f : α → Action τ ε β}
    (h : x.Performs log fault plan t)
    (h' : ∀ a t', x t = (.ok a, t') → (f a).Performs log fault [] t') :
    (x >>= f).Performs log fault plan t := by
  have hbind := h.bind h'
  rwa [List.append_nil] at hbind

/-- Renaming the errors of an action. -/
theorem orFail {action : Action τ ε α} {f : ε → ε'} {fault' : ε' → Prop}
    (h : action.Performs log fault plan t) (hf : ∀ e, fault' (f e) ↔ fault e) :
    (action.orFail f).Performs log fault' plan t := by
  obtain ⟨asked, hlog, hfollows⟩ := h
  refine ⟨asked, by rw [orFail_apply]; exact hlog, ?_⟩
  rw [orFail_apply]
  refine ⟨hfollows.steady, hfollows.deeds_prefix, ?_, ?_⟩
  · intro a ha
    refine hfollows.done a ?_
    cases hresult : (action t).1 with
    | ok b => simpa [hresult, Except.mapError] using ha
    | error e => simp [hresult, Except.mapError] at ha
  · intro e' he'
    cases hresult : (action t).1 with
    | ok b => simp [hresult, Except.mapError] at he'
    | error e =>
      simp only [hresult, Except.mapError, Except.error.injEq] at he'
      rw [← he', hf, hfollows.blame e hresult]

/-- A single request, which fails when its answer is an error. -/
theorem noted {action : Action σ ε α} {plan : List Deed} (request : Except ε α → Request)
    (hdeed : ∀ answer, Request.deeds [request answer] = plan)
    (hfailed : ∀ answer, (request answer).failed = !answer.isOk) (n : Noted σ) :
    (action.noted request).Performs Noted.requests (fun _ => True) plan n :=
  ⟨[request (action n.world).1], rfl, .single (hdeed _) (hfailed _) fun _ _ => trivial⟩

end Performs

end Action

end FuzzCampaign
