import Mathlib.Data.List.Basic
import ServiceSplit.Deploy.Orchestration

/-!
# Recorded deployments

What happens when one artifact is brought up, whatever the platform answers. A platform may answer
each call as it likes, which may depend on all that went before; what is called and answered is
recorded.
-/

namespace ServiceSplit

/-- A call with its answer. -/
structure Exchange where
  /-- The call. -/
  call : Call
  /-- The answer, or the failure of the call. -/
  answer : Except Failure call.Answer

namespace Exchange

/-- The failure that an exchange shows: that of a call, or that of a workload that has ended. -/
def failure? : Exchange → Option Failure
  | ⟨_, .error failure⟩ => some failure
  | ⟨.status artifact workload, .ok status⟩ =>
    if status.phase = .failed ∨ status.phase = .succeeded then
      some (.step .scheduling artifact (.stopped workload status.phase))
    else none
  | ⟨_, .ok _⟩ => none

/-- The address that a running workload is seen to have. -/
def address? : Exchange → Option String
  | ⟨.status _ _, .ok status⟩ => if status.phase = .running then status.address else none
  | ⟨_, _⟩ => none

/-- Whether an exchange is a look at a workload. -/
def isLook (e : Exchange) : Bool :=
  e.call.stage == .status

/-- What a look comes to. -/
def verdict (e : Exchange) : Except Failure (Option String) :=
  match e.failure? with
  | some failure => .error failure
  | none => .ok e.address?

theorem failure?_eq_none_of_verdict {e : Exchange} {found : Option String}
    (h : e.verdict = .ok found) : e.failure? = none ∧ e.address? = found := by
  unfold verdict at h
  split at h
  · cases h
  · rename_i hnone
    exact ⟨hnone, by injection h⟩

theorem failure?_of_verdict {e : Exchange} {failure : Failure} (h : e.verdict = .error failure) :
    e.failure? = some failure := by
  unfold verdict at h
  split at h
  · rename_i hsome
    cases h
    exact hsome
  · cases h

theorem verdict_of_failure? {e : Exchange} {failure : Failure} (h : e.failure? = some failure) :
    e.verdict = .error failure := by
  rw [verdict, h]

/-- A workload with an address has not ended. -/
theorem address?_eq_none_of_failure? {e : Exchange} {failure : Failure}
    (h : e.failure? = some failure) : e.address? = none := by
  unfold failure? at h
  split at h
  · unfold address?
    split
    · rename_i heq
      cases heq
    · rfl
  · rename_i status
    split at h
    · rename_i hended
      have hrunning : status.phase ≠ .running := by
        rcases hended with hended | hended <;> rw [hended] <;> decide
      exact if_neg hrunning
    · cases h
  · cases h

theorem address?_eq_none {e : Exchange} (h : e.isLook = false) : e.address? = none := by
  unfold address?
  split
  · cases h
  · rfl

end Exchange

/-- How a platform behaves: its answer to each call after what has happened. -/
abbrev Behaviour :=
  List Exchange → (c : Call) → Except Failure c.Answer

/-- The platform with a given behaviour. It records what happens. -/
def Behaviour.platform (behaviour : Behaviour) : Platform (StateM (List Exchange)) where
  call c := ExceptT.mk fun past =>
    (behaviour past c, past ++ [⟨c, behaviour past c⟩])
  pause _ := return

/-! ### What a computation records -/

/-- Whatever happened before, the computation records some exchanges and has a result such that `P`
holds of both. -/
def Records {α : Type} (x : ExceptT Failure (StateM (List Exchange)) α)
    (P : List Exchange → Except Failure α → Prop) : Prop :=
  ∀ past, ∃ log result, x.run.run past = (result, past ++ log) ∧ P log result

namespace Records

variable {α β : Type} {x : ExceptT Failure (StateM (List Exchange)) α}
  {f : α → ExceptT Failure (StateM (List Exchange)) β} {P : List Exchange → Except Failure α → Prop}

theorem pure {a : α} (h : P [] (.ok a)) : Records (Pure.pure a) P :=
  fun past => ⟨[], .ok a, by rw [List.append_nil]; rfl, h⟩

theorem throw {failure : Failure} (h : P [] (.error failure)) :
    Records (MonadExceptOf.throw failure) P :=
  fun past => ⟨[], .error failure, by rw [List.append_nil]; rfl, h⟩

theorem imp {Q : List Exchange → Except Failure α → Prop} (h : Records x P)
    (hPQ : ∀ log result, P log result → Q log result) : Records x Q := by
  intro past
  obtain ⟨log, result, hrun, hP⟩ := h past
  exact ⟨log, result, hrun, hPQ log result hP⟩

/-- A computation that follows another one adds to its record, unless the first one fails. -/
theorem bind {Q : List Exchange → Except Failure β → Prop} (h : Records x P)
    (herror : ∀ log failure, P log (.error failure) → Q log (.error failure))
    (hok : ∀ log a, P log (.ok a) → Records (f a) fun log' result => Q (log ++ log') result) :
    Records (x >>= f) Q := by
  intro past
  obtain ⟨log, result, hrun, hP⟩ := h past
  have hbind : (x >>= f).run.run past =
      ExceptT.bindCont f result (past ++ log) := by
    change (let (r, s) := x.run.run past; ExceptT.bindCont f r s) = _
    rw [hrun]
  cases result with
  | error failure => exact ⟨log, .error failure, hbind, herror log failure hP⟩
  | ok a =>
    obtain ⟨log', result', hrun', hQ⟩ := hok log a hP (past ++ log)
    exact ⟨log ++ log', result', by rw [hbind, ← List.append_assoc]; exact hrun', hQ⟩

theorem call {behaviour : Behaviour} {c : Call} {P : List Exchange → Except Failure c.Answer → Prop}
    (h : ∀ answer, P [⟨c, answer⟩] answer) : Records (behaviour.platform.call c) P :=
  fun past => ⟨[⟨c, behaviour past c⟩], behaviour past c, rfl, h _⟩

end Records

/-! ### Failures end the record -/

/-- Nothing is recorded after a failure, which is the result. -/
structure Halts {α : Type} (log : List Exchange) (result : Except Failure α) : Prop where
  quiet : ∀ e ∈ log.dropLast, e.failure? = none
  last : ∀ e ∈ log.getLast?, ∀ failure, e.failure? = some failure → result = .error failure

namespace Halts

variable {α β : Type} {log log' : List Exchange}

theorem of_quiet (h : ∀ e ∈ log, e.failure? = none) (result : Except Failure α) :
    Halts log result where
  quiet e he := h e (List.dropLast_subset log he)
  last e he failure hfailure := by
    rw [h e (List.mem_of_getLast? he)] at hfailure
    cases hfailure

theorem quiet_of_ok {a : α} (h : Halts log (.ok a)) : ∀ e ∈ log, e.failure? = none := by
  intro e he
  rcases List.eq_nil_or_concat log with rfl | ⟨front, last, rfl⟩
  · cases he
  · rw [List.concat_eq_append] at he h
    rcases List.mem_append.mp he with he | he
    · exact h.quiet e (by rwa [List.dropLast_concat])
    · obtain rfl := List.mem_singleton.mp he
      by_contra hsome
      obtain ⟨failure, hfailure⟩ := Option.ne_none_iff_exists'.mp hsome
      cases h.last e (by rw [List.getLast?_concat]; rfl) failure hfailure

theorem of_error {failure : Failure} (h : Halts log (.error failure : Except Failure α)) :
    Halts log (.error failure : Except Failure β) where
  quiet := h.quiet
  last e he failure' hfailure := by
    cases h.last e he failure' hfailure
    rfl

theorem append {a : α} {result : Except Failure β} (h : Halts log (.ok a))
    (h' : Halts log' result) : Halts (log ++ log') result := by
  rcases List.eq_nil_or_concat log' with rfl | ⟨front, last, rfl⟩
  · rw [List.append_nil]
    exact of_quiet h.quiet_of_ok result
  · rw [List.concat_eq_append] at h' ⊢
    have hlast : (front ++ [last]).getLast? = some last := List.getLast?_concat
    rw [← List.append_assoc]
    refine ⟨fun e he => ?_, fun e he failure hfailure => ?_⟩
    · rw [List.dropLast_concat] at he
      rcases List.mem_append.mp he with he | he
      · exact h.quiet_of_ok e he
      · exact h'.quiet e (by rwa [List.dropLast_concat])
    · rw [List.getLast?_concat] at he
      exact h'.last e (hlast.trans he) failure hfailure

/-- A failure stands at the end of the record. -/
theorem of_append_eq {result : Except Failure α} (h : Halts log result)
    {front behind : List Exchange} {e : Exchange} {failure : Failure}
    (heq : log = front ++ e :: behind)
    (hfailure : e.failure? = some failure) : behind = [] ∧ result = .error failure := by
  rcases List.eq_nil_or_concat behind with rfl | ⟨init, last, rfl⟩
  · exact ⟨rfl, h.last e (by rw [heq, List.getLast?_concat]; rfl) failure hfailure⟩
  · have hmem : e ∈ log.dropLast := by
      rw [heq, List.concat_eq_append, ← List.cons_append, ← List.append_assoc, List.dropLast_concat]
      simp
    rw [h.quiet e hmem] at hfailure
    cases hfailure

end Halts

/-! ### Looking at a workload -/

/-- Looks at a workload, at most `most` of them, and what they come to. Only the last one finds that
the workload runs and has an address, that it has ended, or fails. -/
structure Looks (artifact workload : String) (most : Nat) (log : List Exchange)
    (result : Except Failure (Option String)) : Prop where
  calls : ∀ e ∈ log, e.call = .status artifact workload
  atMost : log.length ≤ most
  quiet : ∀ e ∈ log.dropLast, e.verdict = .ok none
  result_eq : result = (log.getLast?.map Exchange.verdict).getD (.ok none)
  exhausted : result = .ok none → log.length = most

namespace Looks

variable {artifact workload : String} {most : Nat} {log : List Exchange}
  {result : Except Failure (Option String)}

theorem zero : Looks artifact workload 0 [] (.ok none) :=
  ⟨List.forall_mem_nil _, Nat.le_refl 0, List.forall_mem_nil _, rfl, fun _ => rfl⟩

theorem single {e : Exchange} (hcall : e.call = .status artifact workload)
    (hends : e.verdict ≠ .ok none) : Looks artifact workload (most + 1) [e] e.verdict :=
  ⟨List.forall_mem_singleton.mpr hcall, Nat.le_add_left 1 most, List.forall_mem_nil _, rfl,
    fun h => absurd h hends⟩

theorem cons {e : Exchange} (hcall : e.call = .status artifact workload)
    (hnone : e.verdict = .ok none) (h : Looks artifact workload most log result) :
    Looks artifact workload (most + 1) (e :: log) result where
  calls := List.forall_mem_cons.mpr ⟨hcall, h.calls⟩
  atMost := Nat.succ_le_succ h.atMost
  quiet := by
    cases log with
    | nil => exact List.forall_mem_nil _
    | cons f log => exact List.forall_mem_cons.mpr ⟨hnone, h.quiet⟩
  result_eq := by
    rw [h.result_eq]
    cases log with
    | nil => exact hnone.symm
    | cons f log => rw [List.getLast?_cons_cons]
  exhausted hresult := congrArg (· + 1) (h.exhausted hresult)

theorem halts (h : Looks artifact workload most log result) : Halts log result where
  quiet e he := (Exchange.failure?_eq_none_of_verdict (h.quiet e he)).1
  last e he failure hfailure := by
    rw [h.result_eq, Option.mem_def.mp he, Option.map_some, Option.getD_some,
      Exchange.verdict_of_failure? hfailure]

theorem address?_getLast? (h : Looks artifact workload most log result) {found : Option String}
    (hresult : result = .ok found) : log.getLast?.bind Exchange.address? = found := by
  have heq := h.result_eq
  rw [hresult] at heq
  cases hlast : log.getLast? with
  | none =>
    rw [hlast] at heq
    injection heq with heq
    exact heq.symm
  | some e =>
    rw [hlast] at heq
    exact (Exchange.failure?_eq_none_of_verdict heq.symm).2

theorem failure?_getLast? {failure : Failure}
    (h : Looks artifact workload most log (.error failure)) :
    ∃ e, log.getLast? = some e ∧ e.failure? = some failure := by
  have heq := h.result_eq
  cases hlast : log.getLast? with
  | none =>
    rw [hlast] at heq
    cases heq
  | some e =>
    rw [hlast] at heq
    exact ⟨e, rfl, Exchange.failure?_of_verdict heq.symm⟩

theorem isLook (h : Looks artifact workload most log result) : ∀ e ∈ log, e.isLook = true := by
  intro e he
  rw [Exchange.isLook, h.calls e he]
  rfl

end Looks

section Looking

variable (behaviour : Behaviour) (config : Config) (policy : RetryPolicy)
  (artifact workload : String)

theorem records_look : Records
    ((⟨behaviour.platform, config, policy⟩ : Deployment (StateM (List Exchange))).look artifact
    workload)
    fun log result => ∃ e, log = [e] ∧ e.call = .status artifact workload ∧ result = e.verdict := by
  refine (Records.call (P := fun log answer => log = [⟨.status artifact workload, answer⟩])
    fun answer => rfl).bind ?_ ?_
  · rintro _ failure rfl
    exact ⟨_, rfl, rfl, rfl⟩
  · rintro _ ⟨phase, address⟩ rfl
    cases phase with
    | running =>
      cases address with
      | some address | none => exact .pure ⟨_, rfl, rfl, rfl⟩
    | failed | succeeded => exact .throw ⟨_, rfl, rfl, rfl⟩
    | pending | unknown => exact .pure ⟨_, rfl, rfl, rfl⟩

theorem records_pollFrom (pause : StateM (List Exchange) Unit) (hpause : pause = return)
    (left n : Nat) : Records
    (RetryPolicy.pollFrom pause (fun _ => (⟨behaviour.platform, config, policy⟩ :
      Deployment (StateM (List Exchange))).look artifact workload) left n)
    (Looks artifact workload left) := by
  induction left generalizing n with
  | zero => exact .pure .zero
  | succ left ih =>
    refine (records_look behaviour config policy artifact workload).bind ?_ ?_
    · rintro _ failure ⟨e, rfl, hcall, hresult⟩
      rw [hresult]
      exact .single hcall (by rw [← hresult]; exact nofun)
    · rintro _ found ⟨e, rfl, hcall, hresult⟩
      cases found with
      | some address =>
        refine .pure ?_
        rw [List.append_nil, hresult]
        exact .single hcall (by rw [← hresult]; exact nofun)
      | none =>
        have hnext := (ih (n + 1)).imp fun log result h => h.cons hcall hresult.symm
        subst hpause
        dsimp only
        split
        · exact hnext
        · exact hnext

theorem records_poll : Records
    (policy.poll behaviour.platform.pause (fun _ => (⟨behaviour.platform, config, policy⟩ :
      Deployment (StateM (List Exchange))).look artifact workload))
    (Looks artifact workload policy.maxAttempts) := by
  refine records_pollFrom behaviour config policy artifact workload _ ?_ _ _
  split
  · rfl
  · rfl

/-- Waiting for a workload ends with looks that find its address, that fail, or that are as many as
are allowed. -/
theorem records_awaitRunning : Records
    ((⟨behaviour.platform, config, policy⟩ : Deployment (StateM (List Exchange))).awaitRunning
      artifact workload)
    fun log result => ∃ found, Looks artifact workload policy.maxAttempts log found ∧
      result = found.bind fun
        | some address => .ok address
        | none =>
            .error (.step .scheduling artifact (.notRunning workload policy.maxAttempts)) := by
  refine (records_poll behaviour config policy artifact workload).bind ?_ ?_
  · intro log failure hlooks
    exact ⟨.error failure, hlooks, rfl⟩
  · intro log found hlooks
    cases found with
    | some address => exact .pure ⟨_, by rwa [List.append_nil], rfl⟩
    | none => exact .throw ⟨_, by rwa [List.append_nil], rfl⟩

end Looking

/-! ### Bringing up one artifact -/

/-- An artifact to be brought up, with its network port and its environment. -/
structure Job where
  /-- The artifact. -/
  artifact : ArtifactDir
  /-- The number of the network port. -/
  port : Nat
  /-- The environment. -/
  env : Variables

namespace Job

/-- The image of an artifact. -/
def image (config : Config) (job : Job) : String :=
  imageName config.registry.location job.artifact.name

/-- The workload of an artifact. -/
def spec (config : Config) (job : Job) : WorkloadSpec :=
  ⟨job.artifact.name, workloadName job.artifact.name, job.image config, job.port, job.env⟩

/-- Where an artifact is reached that has a given address. -/
def url (job : Job) (address : String) : String :=
  "http://" ++ address ++ ":" ++ Text.decimal job.port

/-- The record of starting a workload, up to the first failure, and the name of the workload. -/
inductive Setup (config : Config) (job : Job) : List Exchange → Except Failure String → Prop
  | compile (failure : Failure) :
      Setup config job [⟨.compile job.artifact.name job.artifact.dir, .error failure⟩]
      (.error failure)
  | containerize (executable : String) (failure : Failure) :
      Setup config job
        [⟨.compile job.artifact.name job.artifact.dir, .ok executable⟩,
          ⟨.containerize job.artifact.name executable (job.image config), .error failure⟩]
        (.error failure)
  | push (executable : String) (failure : Failure) :
      Setup config job
        [⟨.compile job.artifact.name job.artifact.dir, .ok executable⟩,
          ⟨.containerize job.artifact.name executable (job.image config), .ok ()⟩,
          ⟨.push job.artifact.name (job.image config), .error failure⟩]
        (.error failure)
  | create (executable : String) (answer : Except Failure String) :
      Setup config job
        [⟨.compile job.artifact.name job.artifact.dir, .ok executable⟩,
          ⟨.containerize job.artifact.name executable (job.image config), .ok ()⟩,
          ⟨.push job.artifact.name (job.image config), .ok ()⟩,
          ⟨.create (job.spec config), answer⟩]
        answer

/-- The record of bringing up an artifact, or of the attempt at it. An artifact that is up has a
workload and is reached at the address that the last look tells. -/
inductive Attempt (config : Config) (policy : RetryPolicy) (job : Job) :
    List Exchange → Except Failure (String × String) → Prop
  | unstarted {log : List Exchange} {failure : Failure}
      (h : job.Setup config log (.error failure)) :
      Attempt config policy job log (.error failure)
  | ended {setup looks : List Exchange} {workload : String} {failure : Failure}
      (h : job.Setup config setup (.ok workload))
      (hlooks : Looks job.artifact.name workload policy.maxAttempts looks (.error failure)) :
      Attempt config policy job (setup ++ looks) (.error failure)
  | waiting {setup looks : List Exchange} {workload : String}
      (h : job.Setup config setup (.ok workload))
      (hlooks : Looks job.artifact.name workload policy.maxAttempts looks (.ok none)) :
      Attempt config policy job (setup ++ looks)
        (.error (.step .scheduling job.artifact.name (.notRunning workload policy.maxAttempts)))
  | running {setup looks : List Exchange} {workload address : String}
      (h : job.Setup config setup (.ok workload))
      (hlooks : Looks job.artifact.name workload policy.maxAttempts looks (.ok (some address))) :
      Attempt config policy job (setup ++ looks) (.ok (workload, job.url address))

end Job

/-- Bringing up an artifact leaves the record of an attempt. -/
theorem records_deploy (behaviour : Behaviour) (config : Config) (policy : RetryPolicy)
    (job : Job) :
    Records ((⟨behaviour.platform, config, policy⟩ : Deployment (StateM (List Exchange))).deploy
      job.artifact job.port job.env) (job.Attempt config policy) := by
  refine (Records.call (P := fun log answer =>
    log = [⟨.compile job.artifact.name job.artifact.dir, answer⟩]) fun _ => rfl).bind ?_ ?_
  · rintro _ failure rfl
    exact .unstarted (.compile failure)
  rintro _ executable rfl
  refine (Records.call (P := fun log answer =>
    log = [⟨.containerize job.artifact.name executable (job.image config), answer⟩])
      fun _ => rfl).bind ?_ ?_
  · rintro _ failure rfl
    exact .unstarted (.containerize executable failure)
  rintro _ _ rfl
  refine (Records.call (P := fun log answer =>
    log = [⟨.push job.artifact.name (job.image config), answer⟩]) fun _ => rfl).bind ?_ ?_
  · rintro _ failure rfl
    exact .unstarted (.push executable failure)
  rintro _ _ rfl
  refine (Records.call (P := fun log answer => log = [⟨.create (job.spec config), answer⟩])
    fun _ => rfl).bind ?_ ?_
  · rintro _ failure rfl
    exact .unstarted (.create executable (.error failure))
  rintro _ workload rfl
  have hsetup : job.Setup config _ (.ok workload) := .create executable (.ok workload)
  refine (records_awaitRunning behaviour config policy job.artifact.name workload).bind ?_ ?_
  · rintro log failure ⟨found, hlooks, hresult⟩
    cases found with
    | error failure' =>
      cases hresult
      exact (Job.Attempt.ended hsetup hlooks :)
    | ok found =>
      cases found with
      | none =>
        cases hresult
        exact (Job.Attempt.waiting hsetup hlooks :)
      | some address => cases hresult
  · rintro log address ⟨found, hlooks, hresult⟩
    obtain rfl : found = .ok (some address) := by
      cases found with
      | error failure => cases hresult
      | ok found =>
        cases found with
        | none => cases hresult
        | some address' =>
          cases hresult
          rfl
    refine .pure ?_
    rw [List.append_nil]
    exact (Job.Attempt.running hsetup hlooks :)

namespace Job

variable {config : Config} {policy : RetryPolicy} {job : Job} {log : List Exchange}

namespace Setup

variable {result : Except Failure String}

theorem halts (h : job.Setup config log result) : Halts log result := by
  cases h with
  | compile failure => exact ⟨by simp, by simp [Exchange.failure?]⟩
  | containerize executable failure | push executable failure =>
    exact ⟨by simp [Exchange.failure?], by simp [Exchange.failure?]⟩
  | create executable =>
    refine ⟨by simp [Exchange.failure?], ?_⟩
    cases result <;> simp [Exchange.failure?]

theorem isLook (h : job.Setup config log result) : ∀ e ∈ log, e.isLook = false := by
  cases h <;> simp [Exchange.isLook, Call.stage]

theorem create_mem {workload : String} (h : job.Setup config log (.ok workload)) :
    ⟨.create (job.spec config), .ok workload⟩ ∈ log := by
  cases h with
  | create executable => simp

theorem failure?_getLast? {failure : Failure} (h : job.Setup config log (.error failure)) :
    ∃ e, log.getLast? = some e ∧ e.failure? = some failure := by
  cases h <;> exact ⟨_, rfl, rfl⟩

end Setup

/-! ### What the record of an attempt tells -/

/-- The address that the last look of a record tells. -/
def foundAddress (log : List Exchange) : Option String :=
  log.getLast?.bind Exchange.address?

/-- The number of looks in a record. -/
def lookCount (log : List Exchange) : Nat :=
  log.countP Exchange.isLook

/-- The looks of a record stand behind what is no look. -/
theorem lookCount_append {setup looks : List Exchange} (hsetup : ∀ e ∈ setup, e.isLook = false)
    (hlooks : ∀ e ∈ looks, e.isLook = true) : lookCount (setup ++ looks) = looks.length := by
  have hzero : setup.countP Exchange.isLook = 0 :=
    List.countP_eq_zero.mpr fun e he => by rw [hsetup e he]; exact nofun
  rw [lookCount, List.countP_append, hzero, Nat.zero_add, List.countP_eq_length.mpr hlooks]

theorem foundAddress_append {setup looks : List Exchange}
    (hsetup : ∀ e ∈ setup, e.isLook = false) :
    foundAddress (setup ++ looks) = looks.getLast?.bind Exchange.address? := by
  cases hlast : looks.getLast? with
  | some e => rw [foundAddress, List.getLast?_append, hlast]; rfl
  | none =>
    rw [List.getLast?_eq_none_iff.mp hlast, List.append_nil, foundAddress]
    cases hsetupLast : setup.getLast? with
    | none => rfl
    | some e => exact Exchange.address?_eq_none (hsetup e (List.mem_of_getLast? hsetupLast))

namespace Attempt

variable {result : Except Failure (String × String)}

/-- Nothing is called after a failure, which is the result. -/
theorem halts (h : job.Attempt config policy log result) : Halts log result := by
  cases h with
  | unstarted h => exact h.halts.of_error
  | ended h hlooks => exact h.halts.append hlooks.halts.of_error
  | waiting h hlooks | running h hlooks =>
    exact .of_quiet (h.halts.append hlooks.halts).quiet_of_ok _

/-- There are no more looks than the policy allows. -/
theorem lookCount_le (h : job.Attempt config policy log result) :
    lookCount log ≤ policy.maxAttempts := by
  cases h with
  | unstarted h =>
    have := lookCount_append h.isLook (List.forall_mem_nil _)
    rw [List.append_nil] at this
    rw [this]
    exact Nat.zero_le _
  | ended h hlooks | waiting h hlooks | running h hlooks =>
    exact lookCount_append h.isLook hlooks.isLook ▸ hlooks.atMost

/-- Only the last look tells an address. -/
theorem address?_dropLast (h : job.Attempt config policy log result) :
    ∀ e ∈ log.dropLast, e.address? = none := by
  have happend : ∀ {setup looks : List Exchange} {workload : String}
      {found : Except Failure (Option String)}, job.Setup config setup (.ok workload) →
      Looks job.artifact.name workload policy.maxAttempts looks found →
      ∀ e ∈ (setup ++ looks).dropLast, e.address? = none := by
    intro setup looks workload found hsetup hlooks e he
    have hnone : ∀ e ∈ setup, e.address? = none :=
      fun e he => Exchange.address?_eq_none (hsetup.isLook e he)
    cases looks with
    | nil =>
      rw [List.append_nil] at he
      exact hnone e (List.dropLast_subset _ he)
    | cons look looks =>
      rw [List.dropLast_append_of_ne_nil (List.cons_ne_nil _ _)] at he
      rcases List.mem_append.mp he with he | he
      · exact hnone e he
      · exact (Exchange.failure?_eq_none_of_verdict (hlooks.quiet e he)).2
  cases h with
  | unstarted h =>
    exact fun e he => Exchange.address?_eq_none (h.isLook e (List.dropLast_subset _ he))
  | ended h hlooks | waiting h hlooks | running h hlooks => exact happend h hlooks

/-- An artifact that is up runs in the workload that was created, and is reached at the address that
the last look tells. -/
theorem exists_of_ok {workload place : String}
    (h : job.Attempt config policy log (.ok (workload, place))) :
    ∃ address, foundAddress log = some address ∧ place = job.url address ∧
      ⟨.create (job.spec config), .ok workload⟩ ∈ log := by
  cases h with
  | running h hlooks =>
    refine ⟨_, ?_, rfl, List.mem_append_left _ h.create_mem⟩
    rw [foundAddress_append h.isLook, hlooks.address?_getLast? rfl]

/-- An attempt that fails tells no address. It ends with the failure, unless the workload was looked
at as often as allowed. -/
theorem of_error {failure : Failure} (h : job.Attempt config policy log (.error failure)) :
    foundAddress log = none ∧ ((∃ e, log.getLast? = some e ∧ e.failure? = some failure) ∨
      ∃ workload, ⟨.create (job.spec config), .ok workload⟩ ∈ log ∧
        lookCount log = policy.maxAttempts ∧
        failure = .step .scheduling job.artifact.name
        (.notRunning workload policy.maxAttempts)) := by
  have hlast : ∀ {log : List Exchange}, (∃ e, log.getLast? = some e ∧ e.failure? = some failure) →
      foundAddress log = none := by
    rintro log ⟨e, he, hfailure⟩
    rw [foundAddress, he]
    exact Exchange.address?_eq_none_of_failure? hfailure
  cases h with
  | unstarted h => exact ⟨hlast h.failure?_getLast?, .inl h.failure?_getLast?⟩
  | @ended setup looks workload _ h hlooks =>
    obtain ⟨e, he, hfailure⟩ := hlooks.failure?_getLast?
    have hend : ∃ e, (setup ++ looks).getLast? = some e ∧ e.failure? = some failure :=
      ⟨e, by rw [List.getLast?_append, he]; rfl, hfailure⟩
    exact ⟨hlast hend, .inl hend⟩
  | waiting h hlooks =>
    refine ⟨by rw [foundAddress_append h.isLook, hlooks.address?_getLast? rfl],
      .inr ⟨_, ?_, ?_, rfl⟩⟩
    · exact List.mem_append_left _ h.create_mem
    · rw [lookCount_append h.isLook hlooks.isLook, hlooks.exhausted rfl]

end Attempt

end Job

end ServiceSplit
