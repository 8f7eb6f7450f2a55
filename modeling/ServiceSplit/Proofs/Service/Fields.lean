import ServiceSplit.Proofs.Text.FreshName
import ServiceSplit.Service.Payload

/-!
# Names of parameters and fields

The parameters of a service keep their names, and those without one are called by their position.
Two of them have the same name only if a parameter has the name that is made for another one. The
fields of a structured request have different names in any case, since a name that is taken is
numbered.
-/

namespace ServiceSplit

/-! ### Fields of a request -/

/-- The parameter that a field is for. -/
def PayloadField.entryParam (f : PayloadField) : EntryParam :=
  ⟨f.param, f.ty⟩

namespace Payload

theorem map_entryParam_fieldsFrom (before : List PayloadField) (ps : List EntryParam) :
    (fieldsFrom before ps).map PayloadField.entryParam =
      before.map PayloadField.entryParam ++ ps := by
  induction ps generalizing before with
  | nil => rw [fieldsFrom, List.append_nil]
  | cons p ps ih =>
    rw [fieldsFrom, ih, List.map_append, List.append_assoc]
    rfl

theorem nodup_field_fieldsFrom {before : List PayloadField}
    (hbefore : (before.map PayloadField.field).Nodup) (ps : List EntryParam) :
    ((fieldsFrom before ps).map PayloadField.field).Nodup := by
  induction ps generalizing before with
  | nil => exact hbefore
  | cons p ps ih =>
    rw [fieldsFrom]
    refine ih ?_
    rw [List.map_append, List.map_singleton, ← List.concat_eq_append]
    exact hbefore.concat (Text.freshName_notMem _ _)

variable {ps : List EntryParam} {fields : List PayloadField}

theorem fieldsFrom_of_ofParams (h : ofParams ps = .json fields) : fields = fieldsFrom [] ps := by
  unfold ofParams at h
  split at h
  · cases h
  · split_ifs at h
    cases h
    rfl
  · cases h
    rfl

/-- There is a field for each parameter, in order. -/
theorem map_entryParam_of_ofParams (h : ofParams ps = .json fields) :
    fields.map PayloadField.entryParam = ps := by
  rw [fieldsFrom_of_ofParams h, map_entryParam_fieldsFrom]
  rfl

/-- The fields of a structured request have different names. -/
theorem nodup_field_of_ofParams (h : ofParams ps = .json fields) :
    (fields.map PayloadField.field).Nodup := by
  rw [fieldsFrom_of_ofParams h]
  exact @nodup_field_fieldsFrom [] List.nodup_nil ps

end Payload

/-! ### Parameters of a service -/

namespace Function

/-- A data parameter has the name that is made for another one, which has none. -/
def TakesMadeName (f : Function) : Prop :=
  ∃ (p q : Param) (i : Nat), f.params[i]? = some p ∧ p.isChannel = false ∧ p.name? = none ∧
    q ∈ f.params ∧ q.isChannel = false ∧ q.name? = some (dataParamName none i)

variable {f : Function}

/-- The data parameters with their positions. -/
theorem mem_dataParams_iff {x : Param × Nat} :
    x ∈ f.params.zipIdx.filter (!·.1.isChannel) ↔
      f.params[x.2]? = some x.1 ∧ x.1.isChannel = false := by
  rw [List.mem_filter, List.mem_zipIdx_iff_getElem?, Bool.not_eq_true']

theorem nodup_zipIdx {α : Type} (xs : List α) : xs.zipIdx.Nodup := by
  refine List.Nodup.of_map Prod.snd ?_
  rw [List.zipIdx_map_snd]
  exact List.nodup_range'

/-- Two positions of parameters with one name are the same. -/
theorem position_unique (hnames : (f.params.filterMap Param.name?).Nodup) {i j : Nat} {p q : Param}
    {name : String} (hp : f.params[i]? = some p) (hq : f.params[j]? = some q)
    (hpname : p.name? = some name) (hqname : q.name? = some name) : i = j := by
  rw [List.Nodup, List.pairwise_filterMap, List.pairwise_iff_getElem] at hnames
  obtain ⟨hi, rfl⟩ := List.getElem?_eq_some_iff.mp hp
  obtain ⟨hj, rfl⟩ := List.getElem?_eq_some_iff.mp hq
  rcases Nat.lt_trichotomy i j with hlt | heq | hgt
  · exact absurd rfl (hnames i j hi hj hlt name hpname name hqname)
  · exact heq
  · exact absurd rfl (hnames j i hj hi hgt name hqname name hpname)

/-- The parameters of a service have different names, unless one of them has the name that is made
for another one. -/
theorem nodup_entryParams_iff (hnames : (f.params.filterMap Param.name?).Nodup) :
    (f.entryParams.map EntryParam.name).Nodup ↔ ¬f.TakesMadeName := by
  rw [entryParams, List.map_map, List.nodup_map_iff_inj_on ((nodup_zipIdx f.params).filter _)]
  constructor
  · rintro hinj ⟨p, q, i, hp, hpdata, hpname, hq, hqdata, hqname⟩
    obtain ⟨j, hj⟩ := List.mem_iff_getElem?.mp hq
    have heq := hinj (p, i) (mem_dataParams_iff.mpr ⟨hp, hpdata⟩) (q, j)
      (mem_dataParams_iff.mpr ⟨hj, hqdata⟩) (by simp [hpname, hqname, dataParamName])
    rw [(Prod.mk.inj heq).1, hqname] at hpname
    cases hpname
  · rintro hfree ⟨p, i⟩ hp ⟨q, j⟩ hq hname
    obtain ⟨hp, hpdata⟩ := mem_dataParams_iff.mp hp
    obtain ⟨hq, hqdata⟩ := mem_dataParams_iff.mp hq
    change dataParamName p.name? i = dataParamName q.name? j at hname
    suffices hij : i = j by
      subst hij
      exact congrArg (·, i) (Option.some.inj (hp.symm.trans hq))
    cases hpname : p.name? with
    | none =>
      cases hqname : q.name? with
      | none =>
        rw [hpname, hqname] at hname
        exact Text.decimal_injective ((String.append_right_inj "arg").mp hname)
      | some n =>
        rw [hpname, hqname] at hname
        exact absurd ⟨p, q, i, hp, hpdata, hpname, List.mem_of_getElem? hq, hqdata,
          hqname.trans (congrArg some hname.symm)⟩ hfree
    | some m =>
      cases hqname : q.name? with
      | none =>
        rw [hpname, hqname] at hname
        exact absurd ⟨q, p, j, hq, hqdata, hqname, List.mem_of_getElem? hp, hpdata,
          hpname.trans (congrArg some hname)⟩ hfree
      | some n =>
        rw [hpname, hqname] at hname
        exact position_unique hnames hp hq hpname (hqname.trans (congrArg some hname.symm))

end Function

end ServiceSplit
