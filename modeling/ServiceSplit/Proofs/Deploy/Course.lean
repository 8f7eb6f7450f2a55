import Mathlib.Data.String.Basic
import ServiceSplit.Proofs.Deploy.Record

/-!
# The course of a deployment

The services are brought up one after the other, and then the controller, which is told where they
are reached. Whatever the platform answers, no artifact is begun before the one in front of it runs,
each workload is looked at a limited number of times, and the first failure ends the deployment.

## Main definitions

* `Ran`: how far a deployment came, artifact by artifact.
* `Course`: what holds of all that a deployment asks the platform for.

## Main results

* `Deployment.exists_course`: every deployment takes such a course, whatever the platform answers.
-/

namespace ServiceSplit

/-! ### Addresses -/

namespace Addresses

theorem lookup_cons_eq (name : String) (entry : String × String) (known : Addresses) :
    List.lookup name (entry :: known) =
      if name = entry.1 then some entry.2 else known.lookup name := by
  obtain ⟨a, old⟩ := entry
  by_cases hname : name = a
  · simp [hname]
  · have hbeq : (name == a) = false := beq_false_of_ne hname
    simp [List.lookup_cons, hbeq, hname]

/-- A later address of an artifact replaces an earlier one. -/
theorem lookup_insert (artifact address name : String) (known : Addresses) :
    List.lookup name (known.insert artifact address) =
      if name = artifact then some address else known.lookup name := by
  induction known with
  | nil => exact lookup_cons_eq name (artifact, address) []
  | cons entry known ih =>
    obtain ⟨a, old⟩ := entry
    rw [insert]
    by_cases hlt : artifact < a
    · rw [if_pos hlt, lookup_cons_eq]
    · by_cases heq : artifact = a
      · subst heq
        rw [if_neg hlt, if_pos rfl, lookup_cons_eq, lookup_cons_eq]
        split <;> rfl
      · rw [if_neg hlt, if_neg heq, lookup_cons_eq, ih, lookup_cons_eq]
        by_cases hname : name = artifact
        · subst hname
          rw [if_pos rfl, if_neg heq, if_pos rfl]
        · rw [if_neg hname, if_neg hname]

/-- Addresses are in the order of the names, of which none occurs twice. -/
def Sorted (known : Addresses) : Prop :=
  known.Pairwise fun a b => a.1 < b.1

theorem mem_insert {artifact address : String} {known : Addresses} {entry : String × String}
    (h : entry ∈ known.insert artifact address) : entry = (artifact, address) ∨
      ∃ e ∈ known, e.1 = entry.1 := by
  induction known with
  | nil => exact .inl (List.mem_singleton.mp h)
  | cons first known ih =>
    obtain ⟨a, old⟩ := first
    rw [insert] at h
    split_ifs at h with hlt heq
    · rcases List.mem_cons.mp h with rfl | h
      · exact .inl rfl
      · exact .inr ⟨entry, h, rfl⟩
    · rcases List.mem_cons.mp h with rfl | h
      · exact .inr ⟨(a, old), List.mem_cons_self, rfl⟩
      · exact .inr ⟨entry, List.mem_cons_of_mem _ h, rfl⟩
    · rcases List.mem_cons.mp h with rfl | h
      · exact .inr ⟨(a, old), List.mem_cons_self, rfl⟩
      · rcases ih h with hentry | ⟨e, he, hname⟩
        · exact .inl hentry
        · exact .inr ⟨e, List.mem_cons_of_mem _ he, hname⟩

theorem Sorted.insert {known : Addresses} (h : known.Sorted) (artifact address : String) :
    (known.insert artifact address).Sorted := by
  induction known with
  | nil => exact List.pairwise_singleton _ _
  | cons first known ih =>
    obtain ⟨a, old⟩ := first
    obtain ⟨hfirst, hknown⟩ := List.pairwise_cons.mp h
    rw [Addresses.insert]
    split_ifs with hlt heq
    · refine List.pairwise_cons.mpr ⟨List.forall_mem_cons.mpr ⟨hlt, fun e he => ?_⟩, h⟩
      exact lt_trans hlt (hfirst e he)
    · exact List.pairwise_cons.mpr ⟨hfirst, hknown⟩
    · refine List.pairwise_cons.mpr ⟨fun e he => ?_, ih hknown⟩
      rcases mem_insert he with rfl | ⟨e', he', hname⟩
      · exact lt_of_le_of_ne (not_lt.mp hlt) (Ne.symm heq)
      · exact hname ▸ hfirst e' he'

end Addresses

/-! ### Records of the services -/

/-- The artifacts other than the controller. -/
def serviceArtifacts (artifacts : List ArtifactDir) : List ArtifactDir :=
  artifacts.filter (·.name != controllerName)

/-- The controller among some artifacts. -/
def controllerArtifact? (artifacts : List ArtifactDir) : Option ArtifactDir :=
  artifacts.find? (·.name == controllerName)

/-- A service to be brought up. -/
def serviceJob (a : ArtifactDir) : Job :=
  ⟨a, servicePort, []⟩

/-- The services that have an address according to their records, with the places at which they are
reached. -/
def places (services : List ArtifactDir) (parts : List (List Exchange)) : Addresses :=
  (services.zip parts).filterMap fun (a, part) =>
    (Job.foundAddress part).map fun address => (a.name, "http://" ++ address ++ ":8080")

/-- Where a service is reached. Of several services with one name it is the last one. -/
def place? (services : List ArtifactDir) (parts : List (List Exchange)) (name : String) :
    Option String :=
  (places services parts).reverse.lookup name

/-- The controller to be brought up. Its environment has its network port, and where each service is
reached that it dispatches to. -/
def controllerJob (config : Config) (dispatched : List String) (place : String → Option String)
    (a : ArtifactDir) : Job :=
  ⟨a, config.controller.port,
    ("KOMPILE_CONTROLLER_PORT", Text.decimal config.controller.port) ::
      dispatched.map fun service => (serviceVariable service, (place service).getD "")⟩

/-- All that is to be brought up: the services in order, and then the controller if it is among the
artifacts. -/
def jobs (config : Config) (artifacts : List ArtifactDir) (dispatched : List String)
    (parts : List (List Exchange)) : List Job :=
  (serviceArtifacts artifacts).map serviceJob ++ (controllerArtifact? artifacts).toList.map
    (controllerJob config dispatched (place? (serviceArtifacts artifacts) parts))

/-- The records of bringing up services one after the other, up to the first failure. -/
inductive ServiceAttempts (config : Config) (policy : RetryPolicy) :
    List ArtifactDir → Addresses → List (List Exchange) → Except Failure Addresses → Prop
  | nil {known : Addresses} : ServiceAttempts config policy [] known [] (.ok known)
  | failed {a : ArtifactDir} {services : List ArtifactDir} {known : Addresses}
      {part : List Exchange} {failure : Failure}
      (h : (serviceJob a).Attempt config policy part (.error failure)) :
      ServiceAttempts config policy (a :: services) known [part] (.error failure)
  | cons {a : ArtifactDir} {services : List ArtifactDir} {known : Addresses}
      {part : List Exchange} {parts : List (List Exchange)} {workload place : String}
      {result : Except Failure Addresses}
      (h : (serviceJob a).Attempt config policy part (.ok (workload, place)))
      (hrest : ServiceAttempts config policy services (known.insert a.name place) parts result) :
      ServiceAttempts config policy (a :: services) known (part :: parts) result

theorem records_services (behaviour : Behaviour) (config : Config) (policy : RetryPolicy)
    (services : List ArtifactDir) (known : Addresses) : Records
    ((⟨behaviour.platform, config, policy⟩ : Deployment (StateM (List Exchange))).services
      services known)
    fun log result => ∃ parts, log = parts.flatten ∧
      ServiceAttempts config policy services known parts result := by
  induction services generalizing known with
  | nil => exact .pure ⟨[], rfl, .nil⟩
  | cons a services ih =>
    refine (records_deploy behaviour config policy (serviceJob a)).bind ?_ ?_
    · intro log failure h
      exact ⟨[log], by simp, .failed h⟩
    · rintro log ⟨workload, place⟩ h
      refine (ih (known.insert a.name place)).imp ?_
      rintro log' result ⟨parts, rfl, hrest⟩
      exact ⟨log :: parts, rfl, .cons h hrest⟩

theorem place?_nil (services : List ArtifactDir) (name : String) :
    place? services [] name = none := by
  simp [place?, places]

theorem place?_cons {part : List Exchange} {address : String}
    (h : Job.foundAddress part = some address) (a : ArtifactDir) (services : List ArtifactDir)
    (parts : List (List Exchange)) (name : String) :
    place? (a :: services) (part :: parts) name = (place? services parts name).or
      (if name = a.name then some ("http://" ++ address ++ ":8080") else none) := by
  have hplaces : places (a :: services) (part :: parts) =
      (a.name, "http://" ++ address ++ ":8080") :: places services parts := by
    simp [places, h]
  rw [place?, hplaces, List.reverse_cons, List.lookup_append, Addresses.lookup_cons_eq]
  rfl

/-- Records behind those of the services do not matter. -/
theorem place?_append {services : List ArtifactDir} {parts : List (List Exchange)}
    (hlen : parts.length = services.length) (more : List (List Exchange)) (name : String) :
    place? services (parts ++ more) name = place? services parts name := by
  have hzip : services.zip (parts ++ more) = services.zip parts := by
    conv_lhs => rw [← List.append_nil services]
    rw [List.zip_append hlen.symm, List.zip_nil_left, List.append_nil]
  rw [place?, places, hzip]
  rfl

theorem url_serviceJob (a : ArtifactDir) (address : String) :
    (serviceJob a).url address = "http://" ++ address ++ ":8080" := by
  have hport : Text.decimal servicePort = "8080" := rfl
  change "http://" ++ address ++ ":" ++ Text.decimal servicePort = _
  rw [hport, String.append_assoc]
  rfl

namespace ServiceAttempts

variable {config : Config} {policy : RetryPolicy} {services : List ArtifactDir} {known : Addresses}
  {parts : List (List Exchange)} {result : Except Failure Addresses}

/-- Each record is that of the service at its place. -/
theorem exists_attempt (h : ServiceAttempts config policy services known parts result) {i : Nat}
    {part : List Exchange} (hpart : parts[i]? = some part) :
    ∃ a r, services[i]? = some a ∧ (serviceJob a).Attempt config policy part r := by
  induction h generalizing i with
  | nil => cases hpart
  | failed h =>
    cases i with
    | zero =>
      cases hpart
      exact ⟨_, _, rfl, h⟩
    | succ i => cases hpart
  | cons h _ ih =>
    cases i with
    | zero =>
      cases hpart
      exact ⟨_, _, rfl, h⟩
    | succ i => exact ih hpart

theorem length_le (h : ServiceAttempts config policy services known parts result) :
    parts.length ≤ services.length := by
  induction h with
  | nil => exact Nat.le_refl 0
  | failed => exact Nat.le_add_left 1 _
  | cons _ _ ih => exact Nat.succ_le_succ ih

/-- A service is begun when the one in front of it has an address. -/
theorem foundAddress_isSome (h : ServiceAttempts config policy services known parts result)
    {i : Nat}
    {part : List Exchange} (hpart : parts[i]? = some part) (hi : i + 1 < parts.length) :
    (Job.foundAddress part).isSome = true := by
  induction h generalizing i with
  | nil => cases hpart
  | failed => exact absurd hi (Nat.not_lt.mpr (Nat.le_add_left 1 i))
  | cons h _ ih =>
    cases i with
    | zero =>
      cases hpart
      obtain ⟨address, hfound, -⟩ := h.exists_of_ok
      exact Option.isSome_of_eq_some hfound
    | succ i => exact ih hpart (Nat.lt_of_succ_lt_succ hi)

theorem halts (h : ServiceAttempts config policy services known parts result) :
    Halts parts.flatten result := by
  induction h with
  | nil => exact .of_quiet (List.forall_mem_nil _) _
  | failed h => simpa using h.halts.of_error
  | cons h _ ih => exact h.halts.append ih

theorem length_eq {known' : Addresses}
    (h : ServiceAttempts config policy services known parts (.ok known')) :
    parts.length = services.length := by
  generalize hresult : Except.ok known' = result at h
  induction h with
  | nil => rfl
  | failed => cases hresult
  | cons _ _ ih => exact congrArg (· + 1) (ih hresult)

theorem forall_foundAddress {known' : Addresses}
    (h : ServiceAttempts config policy services known parts (.ok known')) :
    ∀ part ∈ parts, (Job.foundAddress part).isSome = true := by
  generalize hresult : Except.ok known' = result at h
  induction h with
  | nil => exact List.forall_mem_nil _
  | failed => cases hresult
  | cons h _ ih =>
    obtain ⟨address, hfound, -⟩ := h.exists_of_ok
    exact List.forall_mem_cons.mpr ⟨Option.isSome_of_eq_some hfound, ih hresult⟩

/-- When all services are up, it is known where they are reached. -/
theorem lookup_eq {known' : Addresses}
    (h : ServiceAttempts config policy services known parts (.ok known')) (name : String) :
    known'.lookup name = (place? services parts name).or (known.lookup name) := by
  generalize hresult : Except.ok known' = result at h
  induction h with
  | nil =>
    cases hresult
    rw [place?_nil, Option.none_or]
  | failed => cases hresult
  | cons h _ ih =>
    obtain ⟨address, hfound, rfl, -⟩ := h.exists_of_ok
    rw [ih hresult, Addresses.lookup_insert, place?_cons hfound, url_serviceJob, Option.or_assoc]
    congr 1
    split <;> rfl

theorem sorted {known' : Addresses}
    (h : ServiceAttempts config policy services known parts (.ok known')) (hknown : known.Sorted) :
    known'.Sorted := by
  generalize hresult : Except.ok known' = result at h
  induction h with
  | nil =>
    cases hresult
    exact hknown
  | failed => cases hresult
  | cons _ _ ih => exact ih (hknown.insert _ _) hresult

theorem exists_of_error {failure : Failure}
    (h : ServiceAttempts config policy services known parts (.error failure)) :
    ∃ front part a, parts = front ++ [part] ∧ services[front.length]? = some a ∧
      (serviceJob a).Attempt config policy part (.error failure) := by
  generalize hresult : Except.error failure = result at h
  induction h with
  | nil => cases hresult
  | failed h =>
    cases hresult
    exact ⟨[], _, _, rfl, rfl, h⟩
  | cons _ _ ih =>
    obtain ⟨front, part, a, rfl, ha, h⟩ := ih hresult
    exact ⟨_ :: front, part, a, rfl, ha, h⟩

end ServiceAttempts

/-! ### Records of all artifacts -/

/-- The records of bringing up all artifacts: those of the services, that of the controller if it is
begun, and that of making it reachable. -/
inductive Ran (config : Config) (policy : RetryPolicy) (artifacts : List ArtifactDir)
    (dispatched : List String) :
    List (List Exchange) → List Exchange → Except Failure Addresses → Prop
  | services {parts : List (List Exchange)} {failure : Failure}
      (h : ServiceAttempts config policy (serviceArtifacts artifacts) [] parts (.error failure)) :
      Ran config policy artifacts dispatched parts [] (.error failure)
  | alone {parts : List (List Exchange)} {known : Addresses}
      (h : ServiceAttempts config policy (serviceArtifacts artifacts) [] parts (.ok known))
      (ha : controllerArtifact? artifacts = none) :
      Ran config policy artifacts dispatched parts [] (.ok known)
  | unwired {parts : List (List Exchange)} {known : Addresses} {a : ArtifactDir} {name : String}
      (h : ServiceAttempts config policy (serviceArtifacts artifacts) [] parts (.ok known))
      (ha : controllerArtifact? artifacts = some a) (hname : name ∈ dispatched)
      (hmissing : place? (serviceArtifacts artifacts) parts name = none) :
      Ran config policy artifacts dispatched parts []
        (.error (.step .scheduling controllerName (.noAddress name)))
  | controller {parts : List (List Exchange)} {known : Addresses} {a : ArtifactDir}
      {part : List Exchange} {failure : Failure}
      (h : ServiceAttempts config policy (serviceArtifacts artifacts) [] parts (.ok known))
      (ha : controllerArtifact? artifacts = some a)
      (hwired : ∀ name ∈ dispatched, (place? (serviceArtifacts artifacts) parts name).isSome = true)
      (hpart :
      (controllerJob config dispatched (place? (serviceArtifacts artifacts) parts) a).Attempt
        config policy part (.error failure)) :
      Ran config policy artifacts dispatched (parts ++ [part]) [] (.error failure)
  | exposed {parts : List (List Exchange)} {known : Addresses} {a : ArtifactDir}
      {part : List Exchange} {workload place : String} (answer : Except Failure Unit)
      (h : ServiceAttempts config policy (serviceArtifacts artifacts) [] parts (.ok known))
      (ha : controllerArtifact? artifacts = some a)
      (hwired : ∀ name ∈ dispatched, (place? (serviceArtifacts artifacts) parts name).isSome = true)
      (hpart :
      (controllerJob config dispatched (place? (serviceArtifacts artifacts) parts) a).Attempt
        config policy part (.ok (workload, place))) :
      Ran config policy artifacts dispatched (parts ++ [part])
        [⟨.expose controllerName workload config.controller.host config.controller.port, answer⟩]
        (answer.map fun _ => known.insert controllerName place)

theorem records_run (behaviour : Behaviour) (config : Config) (policy : RetryPolicy)
    (artifacts : List ArtifactDir) (dispatched : List String) : Records
    ((⟨behaviour.platform, config, policy⟩ : Deployment (StateM (List Exchange))).run
      artifacts dispatched)
    fun log result => ∃ parts exposed, log = parts.flatten ++ exposed ∧
      Ran config policy artifacts dispatched parts exposed result := by
  refine (records_services behaviour config policy (serviceArtifacts artifacts) []).bind ?_ ?_
  · rintro _ failure ⟨parts, rfl, h⟩
    exact ⟨parts, [], (List.append_nil _).symm, .services h⟩
  rintro _ known ⟨parts, rfl, h⟩
  have hlookup : (fun name => known.lookup name) = place? (serviceArtifacts artifacts) parts :=
    funext fun name => (h.lookup_eq name).trans (Option.or_none)
  rw [← controllerArtifact?]
  cases ha : controllerArtifact? artifacts with
  | none => exact .pure ⟨parts, [], rfl, .alone h ha⟩
  | some a =>
    unfold Deployment.controller
    cases hfind : dispatched.find? fun service => (known.lookup service).isNone with
    | some name =>
      have hmissing := List.find?_some hfind
      rw [Option.isNone_iff_eq_none, congrFun hlookup name] at hmissing
      exact .throw ⟨parts, [], rfl, .unwired h ha (List.mem_of_find?_eq_some hfind) hmissing⟩
    | none =>
      have hwired : ∀ name ∈ dispatched,
          (place? (serviceArtifacts artifacts) parts name).isSome = true := by
        intro name hname
        have hsome := List.find?_eq_none.mp hfind name hname
        rwa [congrFun hlookup name, Option.isNone_iff_eq_none, ← ne_eq,
          Option.ne_none_iff_isSome] at hsome
      have hjob : controllerJob config dispatched (fun name => known.lookup name) a =
          controllerJob config dispatched (place? (serviceArtifacts artifacts) parts) a :=
        congrArg (controllerJob config dispatched · a) hlookup
      refine (records_deploy behaviour config policy
        (controllerJob config dispatched (fun name => known.lookup name) a)).bind ?_ ?_
      · intro part failure hpart
        exact ⟨parts ++ [part], [], by simp, .controller h ha hwired (hjob ▸ hpart)⟩
      rintro part ⟨workload, place⟩ hpart
      refine (Records.call (P := fun log answer => log = [⟨.expose controllerName workload
        config.controller.host config.controller.port, answer⟩]) fun _ => rfl).bind ?_ ?_
      · rintro _ failure rfl
        exact ⟨parts ++ [part], _, by simp, .exposed (.error failure) h ha hwired (hjob ▸ hpart)⟩
      rintro _ ⟨⟩ rfl
      exact .pure ⟨parts ++ [part], _, by simp, .exposed (.ok ()) h ha hwired (hjob ▸ hpart)⟩

/-! ### The course of a deployment -/

/-- Why a deployment fails: a failure of the platform, a workload that does not come to run, or a
service that the controller dispatches to and that is not among the artifacts. -/
inductive Cause (config : Config) (policy : RetryPolicy) (artifacts : List ArtifactDir)
    (dispatched : List String) (parts : List (List Exchange)) (exposed : List Exchange) :
    Failure → Prop
  | platform {e : Exchange} {failure : Failure}
      (hlast : (parts.flatten ++ exposed).getLast? = some e) (h : e.failure? = some failure) :
      Cause config policy artifacts dispatched parts exposed failure
  | waiting {front : List (List Exchange)} {part : List Exchange} {job : Job} {workload : String}
      (hparts : parts = front ++ [part])
      (hjob : (jobs config artifacts dispatched parts)[front.length]? = some job)
      (hfound : Job.foundAddress part = none) (hcount : Job.lookCount part = policy.maxAttempts) :
      Cause config policy artifacts dispatched parts exposed
        (.step .scheduling job.artifact.name (.notRunning workload policy.maxAttempts))
  | unwired {name : String} (hname : name ∈ dispatched)
      (hmissing : place? (serviceArtifacts artifacts) parts name = none)
      (hlen : parts.length = (serviceArtifacts artifacts).length) :
      Cause config policy artifacts dispatched parts exposed
        (.step .scheduling controllerName (.noAddress name))

/-- All artifacts are up, and it is known where each is reached. -/
structure Reached (config : Config) (artifacts : List ArtifactDir) (dispatched : List String)
    (parts : List (List Exchange)) (exposed : List Exchange) (known : Addresses) : Prop where
  /-- Each artifact was begun. -/
  all : parts.length = (jobs config artifacts dispatched parts).length
  /-- Each artifact was seen to run and to have an address. -/
  found : ∀ part ∈ parts, (Job.foundAddress part).isSome = true
  /-- The controller was made reachable if it is among the artifacts. -/
  exposed_iff : exposed ≠ [] ↔ (controllerArtifact? artifacts).isSome = true
  /-- Names are in order, and none occurs twice. -/
  sorted : known.Sorted
  /-- The addresses are those that were found. -/
  lookup : ∀ name, known.lookup name =
    if name = controllerName then
      (controllerArtifact? artifacts).bind fun _ =>
        (parts.getLast?.bind Job.foundAddress).map fun address =>
          "http://" ++ address ++ ":" ++ Text.decimal config.controller.port
    else place? (serviceArtifacts artifacts) parts name

/-- What a deployment comes to: `parts` are the records of bringing up the artifacts one after the
other, and `exposed` is that of making the controller reachable. -/
structure Course (config : Config) (policy : RetryPolicy) (artifacts : List ArtifactDir)
    (dispatched : List String) (parts : List (List Exchange)) (exposed : List Exchange)
    (result : Except Failure Addresses) : Prop where
  /-- The artifacts are brought up in order: the services, and then the controller. -/
  attempts : ∀ (i : Nat) (part : List Exchange), parts[i]? = some part → ∃ job : Job, ∃ r,
    (jobs config artifacts dispatched parts)[i]? = some job ∧ job.Attempt config policy part r
  /-- Nothing more is called before an artifact was seen to run and to have an address. -/
  running : ∀ (i : Nat) (part : List Exchange), parts[i]? = some part →
    i + 1 < parts.length ∨ exposed ≠ [] → (Job.foundAddress part).isSome = true
  /-- The controller is begun only if each service that it dispatches to has an address. -/
  wired : (serviceArtifacts artifacts).length < parts.length → ∀ name ∈ dispatched,
    (place? (serviceArtifacts artifacts) parts name).isSome = true
  /-- At last the workload of the controller is made reachable. -/
  exposes : exposed ≠ [] → ∃ front part a workload answer, parts = front ++ [part] ∧
    front.length = (serviceArtifacts artifacts).length ∧ controllerArtifact? artifacts = some a ∧
    ⟨.create ((controllerJob config dispatched
      (place? (serviceArtifacts artifacts) parts) a).spec config), .ok workload⟩ ∈ part ∧
    exposed = [⟨.expose controllerName workload config.controller.host config.controller.port,
      answer⟩]
  /-- Each workload is looked at no more often than allowed. -/
  looks : ∀ part ∈ parts, Job.lookCount part ≤ policy.maxAttempts
  /-- A workload is not looked at again after a look that tells an address or a failure. -/
  lastLook : ∀ part ∈ parts, ∀ front e behind, part = front ++ e :: behind →
    e.address? ≠ none ∨ e.failure? ≠ none → behind = []
  /-- A failure ends the deployment. -/
  stops : ∀ front e behind failure, parts.flatten ++ exposed = front ++ e :: behind →
    e.failure? = some failure → behind = [] ∧ result = .error failure
  /-- A deployment fails for a reason. -/
  failed : ∀ failure, result = .error failure →
    Cause config policy artifacts dispatched parts exposed failure
  /-- A deployment that succeeds has brought up all artifacts. -/
  reached : ∀ known, result = .ok known → Reached config artifacts dispatched parts exposed known

namespace Ran

variable {config : Config} {policy : RetryPolicy} {artifacts : List ArtifactDir}
  {dispatched : List String} {parts : List (List Exchange)} {exposed : List Exchange}
  {result : Except Failure Addresses}

theorem jobs_service {i : Nat} {a : ArtifactDir} (ha : (serviceArtifacts artifacts)[i]? = some a) :
    (jobs config artifacts dispatched parts)[i]? = some (serviceJob a) := by
  have hi : i < (serviceArtifacts artifacts).length := (List.getElem?_eq_some_iff.mp ha).1
  rw [jobs, List.getElem?_append_left (by rwa [List.length_map]), List.getElem?_map, ha]
  rfl

theorem jobs_controller {a : ArtifactDir} (ha : controllerArtifact? artifacts = some a)
    (hlen : parts.length = (serviceArtifacts artifacts).length) (more : List (List Exchange)) :
    (jobs config artifacts dispatched (parts ++ more))[parts.length]? =
      some (controllerJob config dispatched (place? (serviceArtifacts artifacts) parts) a) := by
  have hplace : place? (serviceArtifacts artifacts) (parts ++ more) =
      place? (serviceArtifacts artifacts) parts := funext (place?_append hlen more)
  rw [jobs, ha, hplace, List.getElem?_append_right (by rw [List.length_map, hlen]),
    List.length_map, hlen, Nat.sub_self]
  rfl

theorem getElem?_concat {i : Nat} {part last : List Exchange}
    (h : (parts ++ [last])[i]? = some part) :
    parts[i]? = some part ∨ i = parts.length ∧ part = last := by
  rcases Nat.lt_or_ge i parts.length with hi | hi
  · exact .inl (by rwa [List.getElem?_append_left hi] at h)
  · rw [List.getElem?_append_right hi, List.getElem?_singleton] at h
    split at h
    · cases h
      exact .inr ⟨by omega, rfl⟩
    · cases h

theorem attempts (h : Ran config policy artifacts dispatched parts exposed result) (i : Nat)
    (part : List Exchange) (hpart : parts[i]? = some part) : ∃ job r,
      (jobs config artifacts dispatched parts)[i]? = some job ∧
      job.Attempt config policy part r := by
  -- a record of a service, whatever follows the records of the services
  have hservice : ∀ {front : List (List Exchange)} {r : Except Failure Addresses},
      ServiceAttempts config policy (serviceArtifacts artifacts) [] front r →
      front[i]? = some part → ∃ job r,
        (jobs config artifacts dispatched parts)[i]? = some job ∧
          job.Attempt config policy part r := by
    intro front r hfront hi
    obtain ⟨a, r, ha, hattempt⟩ := hfront.exists_attempt hi
    exact ⟨serviceJob a, r, jobs_service ha, hattempt⟩
  cases h with
  | services h | alone h | unwired h => exact hservice h hpart
  | controller h ha hwired hlast | exposed answer h ha hwired hlast =>
    rcases getElem?_concat hpart with hi | ⟨rfl, rfl⟩
    · exact hservice h hi
    · exact ⟨_, _, jobs_controller ha h.length_eq _, hlast⟩

theorem running (h : Ran config policy artifacts dispatched parts exposed result) (i : Nat)
    (part : List Exchange) (hpart : parts[i]? = some part)
    (hnext : i + 1 < parts.length ∨ exposed ≠ []) : (Job.foundAddress part).isSome = true := by
  cases h with
  | services h | alone h | unwired h =>
    exact h.foundAddress_isSome hpart (hnext.resolve_right (· rfl))
  | controller h ha hwired hlast =>
    rcases getElem?_concat hpart with hi | ⟨rfl, rfl⟩
    · exact h.forall_foundAddress part (List.mem_of_getElem? hi)
    · have hlt := hnext.resolve_right (· rfl)
      rw [List.length_append, List.length_singleton] at hlt
      exact absurd hlt (Nat.lt_irrefl _)
  | exposed answer h ha hwired hlast =>
    rcases getElem?_concat hpart with hi | ⟨rfl, rfl⟩
    · exact h.forall_foundAddress part (List.mem_of_getElem? hi)
    · obtain ⟨address, hfound, -⟩ := hlast.exists_of_ok
      exact Option.isSome_of_eq_some hfound

theorem wired (h : Ran config policy artifacts dispatched parts exposed result)
    (hlen : (serviceArtifacts artifacts).length < parts.length) : ∀ name ∈ dispatched,
      (place? (serviceArtifacts artifacts) parts name).isSome = true := by
  cases h with
  | services h | alone h | unwired h => exact absurd h.length_le (Nat.not_le.mpr hlen)
  | controller h ha hwired hlast | exposed answer h ha hwired hlast =>
    intro name hname
    rw [place?_append h.length_eq]
    exact hwired name hname

theorem exposes (h : Ran config policy artifacts dispatched parts exposed result)
    (hexposed : exposed ≠ []) : ∃ front part a workload answer, parts = front ++ [part] ∧
      front.length = (serviceArtifacts artifacts).length ∧ controllerArtifact? artifacts = some a ∧
      ⟨.create ((controllerJob config dispatched
        (place? (serviceArtifacts artifacts) parts) a).spec config), .ok workload⟩ ∈ part ∧
      exposed =
        [⟨.expose controllerName workload config.controller.host config.controller.port,
        answer⟩] := by
  cases h with
  | services | alone | unwired | controller => exact absurd rfl hexposed
  | @exposed front known a part workload place answer h ha hwired hlast =>
    obtain ⟨address, -, -, hcreate⟩ := hlast.exists_of_ok
    refine ⟨front, part, a, workload, answer, rfl, h.length_eq, ha, ?_, rfl⟩
    rwa [funext (place?_append h.length_eq [part])]

theorem halts (h : Ran config policy artifacts dispatched parts exposed result) :
    Halts (parts.flatten ++ exposed) result := by
  cases h with
  | services h | alone h => exact (List.append_nil _).symm ▸ h.halts
  | unwired h =>
    rw [List.append_nil]
    exact .of_quiet h.halts.quiet_of_ok _
  | controller h ha hwired hlast =>
    rw [List.append_nil, List.flatten_concat]
    exact h.halts.append hlast.halts.of_error
  | exposed answer h ha hwired hlast =>
    rw [List.flatten_concat]
    refine (h.halts.append hlast.halts).append ⟨by simp, ?_⟩
    cases answer <;> simp [Exchange.failure?, Except.map]

theorem looks (h : Ran config policy artifacts dispatched parts exposed result) :
    ∀ part ∈ parts, Job.lookCount part ≤ policy.maxAttempts := by
  intro part hpart
  obtain ⟨i, hi⟩ := List.getElem?_of_mem hpart
  obtain ⟨job, r, -, hattempt⟩ := h.attempts i part hi
  exact hattempt.lookCount_le

theorem lastLook (h : Ran config policy artifacts dispatched parts exposed result) :
    ∀ part ∈ parts, ∀ front e behind, part = front ++ e :: behind →
      e.address? ≠ none ∨ e.failure? ≠ none → behind = [] := by
  intro part hpart front e behind heq he
  obtain ⟨i, hi⟩ := List.getElem?_of_mem hpart
  obtain ⟨job, r, -, hattempt⟩ := h.attempts i part hi
  by_contra hne
  have hmem : e ∈ part.dropLast := by
    rw [heq, List.dropLast_append_of_ne_nil (List.cons_ne_nil _ _),
      List.dropLast_cons_of_ne_nil hne]
    simp
  rcases he with he | he
  · exact he (hattempt.address?_dropLast e hmem)
  · exact he (hattempt.halts.quiet e hmem)

theorem failed (h : Ran config policy artifacts dispatched parts exposed result) (failure : Failure)
    (hresult : result = .error failure) :
    Cause config policy artifacts dispatched parts exposed failure := by
  -- the last artifact that was begun could not be brought up
  have hlast : ∀ {front : List (List Exchange)} {part : List Exchange} {job : Job},
      parts = front ++ [part] → exposed = [] →
      (jobs config artifacts dispatched parts)[front.length]? = some job →
      job.Attempt config policy part (.error failure) →
      Cause config policy artifacts dispatched parts exposed failure := by
    intro front part job hparts hexposed hjob hattempt
    obtain ⟨hfound, ⟨e, he, hfailure⟩ | ⟨workload, -, hcount, rfl⟩⟩ := hattempt.of_error
    · refine .platform ?_ hfailure
      rw [hexposed, List.append_nil, hparts, List.flatten_concat, List.getLast?_append, he]
      rfl
    · exact .waiting hparts hjob hfound hcount
  cases h with
  | services h =>
    cases hresult
    obtain ⟨front, part, a, hparts, ha, hattempt⟩ := h.exists_of_error
    exact hlast hparts rfl (jobs_service ha) hattempt
  | alone => cases hresult
  | @unwired _ _ _ name h ha hname hmissing =>
    cases hresult
    exact .unwired hname hmissing h.length_eq
  | controller h ha hwired hpart =>
    cases hresult
    exact hlast rfl rfl (jobs_controller ha h.length_eq _) hpart
  | exposed answer h ha hwired hpart =>
    cases answer with
    | error failure' =>
      cases hresult
      exact .platform List.getLast?_concat rfl
    | ok => cases hresult

theorem place?_controllerName (parts : List (List Exchange)) :
    place? (serviceArtifacts artifacts) parts controllerName = none := by
  rw [place?, List.lookup_eq_none_iff]
  intro entry hentry
  obtain ⟨⟨a, part⟩, hmem, hplace⟩ := List.mem_filterMap.mp (List.mem_reverse.mp hentry)
  obtain ⟨address, -, rfl⟩ := Option.map_eq_some_iff.mp hplace
  have hname := (List.mem_filter.mp (List.of_mem_zip hmem).1).2
  simp only [bne_iff_ne, ne_eq] at hname
  simpa using fun heq => hname heq.symm

theorem reached (h : Ran config policy artifacts dispatched parts exposed result)
    (known : Addresses) (hresult : result = .ok known) :
    Reached config artifacts dispatched parts exposed known := by
  cases h with
  | services => cases hresult
  | alone h ha =>
    cases hresult
    refine ⟨?_, h.forall_foundAddress, by simp [ha], h.sorted List.Pairwise.nil, fun name => ?_⟩
    · rw [h.length_eq, jobs, ha]
      simp
    · rw [(h.lookup_eq name).trans Option.or_none, ha]
      split
      · rename_i hname
        rw [hname, place?_controllerName]
        rfl
      · rfl
  | unwired | controller => cases hresult
  | @exposed front known' a part workload place answer h ha hwired hpart =>
    cases answer with
    | error => cases hresult
    | ok =>
      cases hresult
      obtain ⟨address, hfound, rfl, -⟩ := hpart.exists_of_ok
      refine ⟨?_, ?_, by simp [ha], (h.sorted List.Pairwise.nil).insert _ _, fun name => ?_⟩
      · rw [List.length_append, h.length_eq, jobs, ha]
        simp
      · intro p hp
        rcases List.mem_append.mp hp with hp | hp
        · exact h.forall_foundAddress p hp
        · exact List.mem_singleton.mp hp ▸ Option.isSome_of_eq_some hfound
      · rw [Addresses.lookup_insert, ha, List.getLast?_concat, place?_append h.length_eq,
          (h.lookup_eq name).trans Option.or_none]
        simp only [Option.bind_some, hfound, Option.map_some]
        rfl

end Ran

/-- Whatever a platform answers, a deployment takes its course. -/
theorem Deployment.exists_course (behaviour : Behaviour) (config : Config) (policy : RetryPolicy)
    (artifacts : List ArtifactDir) (dispatched : List String) (past : List Exchange) :
    ∃ parts exposed result,
      ((⟨behaviour.platform, config, policy⟩ : Deployment (StateM (List Exchange))).run
        artifacts dispatched).run.run past = (result, past ++ (parts.flatten ++ exposed)) ∧
      Course config policy artifacts dispatched parts exposed result := by
  obtain ⟨_, result, hrun, parts, exposed, rfl, h⟩ :=
    records_run behaviour config policy artifacts dispatched past
  refine ⟨parts, exposed, result, hrun, ?_⟩
  exact
    { attempts := h.attempts, running := h.running, wired := h.wired, exposes := h.exposes
      looks := h.looks, lastLook := h.lastLook, failed := h.failed, reached := h.reached
      stops := fun _ _ _ _ heq hfailure => h.halts.of_append_eq heq hfailure }

end ServiceSplit
