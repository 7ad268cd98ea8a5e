import NetDesc.Evaluator
import NetDesc.Proofs.Program.Ensures

namespace NetDesc

namespace Program

variable {base : Nat} {s : Store}

theorem forceFound_givesValue {found : Option CellId} (missing : EvalError)
    (hfound : ∀ c, found = some c → c < s.cells.size) :
    (forceFound found missing).GivesValue base s := by
  cases found with
  | none => exact .raise missing
  | some c => exact (force_ensures (hfound c rfl)).imp fun _ _ _ _ _ _ h => h.2.2.1

/-- Names are found in good records only, so whatever a name stands for is a cell that is there,
    and forcing it gives a good value. -/
theorem lookup_givesValue (scope : RecordId) (name : String) (location : Location) :
    (lookup scope name location).GivesValue base s := by
  refine .bind (find_ensures scope name) fun b t found _ _ _ hfound => ?_
  refine forceFound_givesValue _ fun c hc => ?_
  obtain ⟨m, hm, rfl⟩ := Option.map_eq_some_iff.1 hc
  exact hfound m hm

theorem fieldCell_ensures (fields : RecordId) (name : String) :
    (fieldCell fields name).Ensures base s fun b t found =>
      b = base ∧ t = s ∧ ∀ c, found = some c → c < s.cells.size := by
  refine .bind (readRecord_ensures fields) ?_
  rintro b t r hwf - - ⟨rfl, rfl, rfl⟩
  refine .pure ⟨rfl, rfl, fun c hc => ?_⟩
  obtain ⟨m, hm, rfl⟩ := Option.map_eq_some_iff.1 hc
  exact (hwf.record_valid fields).find? hm

theorem field_givesValue (fields : RecordId) (name : String) :
    (field fields name).GivesValue base s := by
  refine .bind (fieldCell_ensures fields name) ?_
  rintro b t found - - - ⟨rfl, rfl, hfound⟩
  exact forceFound_givesValue _ hfound

theorem optionalField_ensures (fields : RecordId) (name : String) :
    (optionalField fields name).Ensures base s fun _ t found =>
      ∀ v, found = some v → v.Valid t := by
  refine .bind (fieldCell_ensures fields name) ?_
  rintro b t found - - - ⟨rfl, rfl, hfound⟩
  cases found with
  | none => exact .pure (by simp)
  | some c =>
    refine .bind (force_ensures (hfound c rfl)) fun b t v _ _ _ hv => ?_
    exact .pure fun w hw => by cases hw; exact hv.2.2.1

/-- Forcing cells gives their values in the same order, and all are there in the end. No record
    changes on the way. -/
theorem forceAll_ensures {cells : List CellId} (hcells : ∀ c ∈ cells, c < s.cells.size) :
    (forceAll cells).Ensures base s fun _ t values =>
      (∀ r < s.records.size, t.record r = s.record r) ∧
      List.Forall₂ (fun c v => v.Valid t ∧ (t.cell c).progress = .finished v) cells values := by
  induction cells generalizing base s with
  | nil => exact .pure ⟨fun _ _ => rfl, .nil⟩
  | cons c cells ih =>
    simp only [forceAll, List.mapM_cons]
    refine .bind (force_ensures (hcells c (by simp))) ?_
    rintro b t v - hst - ⟨-, hsealed, hv, hfinished, -⟩
    have hrest : ∀ c ∈ cells, c < t.cells.size := fun c hc =>
      Nat.lt_of_lt_of_le (hcells c (by simp [hc])) hst.covers.cells
    have hc : c < t.cells.size := Nat.lt_of_lt_of_le (hcells c (by simp)) hst.covers.cells
    refine .bind (ih hrest) ?_
    rintro b u values - htu - ⟨hrecords, hvalues⟩
    refine .pure ⟨fun r hr => ?_, ?_⟩
    · rw [hrecords r (Nat.lt_of_lt_of_le hr hst.covers.records), hsealed.record r hr]
    · exact .cons ⟨hv.mono htu.covers, htu.finished c hc v hfinished⟩ hvalues

theorem forceAll_valid {cells : List CellId} (hcells : ∀ c ∈ cells, c < s.cells.size) :
    (forceAll cells).Ensures base s fun _ t values => ∀ v ∈ values, v.Valid t := by
  refine (forceAll_ensures hcells).imp ?_
  rintro b t values - - - ⟨-, hvalues⟩
  induction hvalues with
  | nil => simp
  | cons hv _ ih =>
    rw [List.forall_mem_cons]
    exact ⟨hv.1, ih fun c hc => hcells c (List.mem_cons_of_mem _ hc)⟩

/-- The cell of a member of a network is made for one of its nodes, or a field has it. -/
theorem networkMember_ensures {id : NetworkId} (hid : id < s.networks.size) (name : String) :
    (networkMember id name).Ensures base s fun _ t found =>
      ∀ c, found = some c → c < t.cells.size := by
  refine .bind (readNetwork_ensures id) ?_
  rintro b t n hwf - - ⟨rfl, rfl, rfl⟩
  have hsound := (hwf.network id hid).2
  cases hfind : (t.network id).find? name with
  | none =>
    exact (fieldCell_ensures _ name).imp fun _ u _ _ hgrows _ h c hc => by
      obtain ⟨-, rfl, hfound⟩ := h
      exact hfound c hc
  | some node =>
    have hnode : node < t.nodes.size := by
      obtain ⟨l, r, heq⟩ := List.lookup_eq_some_iff.1 hfind
      exact hsound.valid (name, node) (by simp [heq.1])
    refine .bind (ready_ensures hnode) ?_
    rintro b u cell - - - ⟨rfl, hcell, -⟩
    exact .pure fun c hc => by cases hc; exact hcell

theorem memberCell?_ensures {v : Value} (hv : v.Valid s) {name : String}
    {p : Program (Option CellId)} (hp : memberCell? v name = some p) :
    p.Ensures base s fun _ t found => ∀ c, found = some c → c < t.cells.size := by
  obtain ⟨payload, location, path⟩ := v
  rcases payload with _ | _ | _ | id | _ | _ | (_ | id | _)
  case record =>
    cases hp
    refine .bind (find_ensures id name) fun b t found _ _ _ hfound => .pure fun c hc => ?_
    obtain ⟨m, hm, rfl⟩ := Option.map_eq_some_iff.1 hc
    exact hfound m hm
  case object.network =>
    cases hp
    exact networkMember_ensures hv name
  all_goals cases hp

/-- Members are looked up in places that are there, so the cell that is found is there as well
    and gives a good value. -/
theorem memberOf_givesValue {v : Value} (hv : v.Valid s) (name : String) (location : Location) :
    (memberOf v name location).GivesValue base s := by
  unfold memberOf
  split
  · next p hp =>
    exact .bind (memberCell?_ensures hv hp) fun b t found _ _ _ hfound =>
      forceFound_givesValue _ hfound
  · exact .raise _

end Program

namespace Function

variable {base : Nat} {s : Store}

theorem bindPositional_ensures {scope : RecordId} {args : List (String × Value)}
    (hopen : base ≤ scope) (hargs : ∀ p ∈ args, p.2.Valid s) :
    (bindPositional scope args).Ensures base s fun b _ _ => b = base := by
  induction args generalizing s with
  | nil => exact .pure rfl
  | cons arg args ih =>
    obtain ⟨name, v⟩ := arg
    refine .bind (Program.addValue_ensures name hopen (hargs (name, v) (by simp))) ?_
    rintro b t - - hst - rfl
    exact ih fun p hp => (hargs p (by simp [hp])).mono hst.covers

theorem bindDefaults_ensures {scope : RecordId} (passed : List (String × Value))
    {named : List (String × CellId)} (hopen : base ≤ scope)
    (hnamed : ∀ p ∈ named, p.2 < s.cells.size) :
    (bindDefaults scope passed named).Ensures base s fun b _ _ => b = base := by
  induction named generalizing s with
  | nil => exact .pure rfl
  | cons p named ih =>
    obtain ⟨name, cell⟩ := p
    have hrest : ∀ p ∈ named, p.2 < s.cells.size := fun p hp => hnamed p (by simp [hp])
    refine .bind (Program.readRecord_ensures scope) ?_
    rintro b t r - - - ⟨rfl, rfl, rfl⟩
    split
    · exact ih hrest
    · refine .bind (Program.readCell_ensures cell) ?_
      rintro b t c - - - ⟨rfl, rfl, rfl⟩
      refine .bind (Program.addMember_ensures name hopen (hnamed (name, cell) (by simp))) ?_
      rintro b u - - hgrows - rfl
      exact ih fun p hp => Nat.lt_of_lt_of_le (hrest p hp) hgrows.covers.cells

theorem bindNamed_ensures {scope : RecordId} (location : Location) {args : List (String × Value)}
    (hopen : base ≤ scope) (hargs : ∀ p ∈ args, p.2.Valid s) :
    (bindNamed scope location args).Ensures base s fun b _ _ => b = base := by
  induction args generalizing s with
  | nil => exact .pure rfl
  | cons arg args ih =>
    obtain ⟨name, v⟩ := arg
    refine .bind (Program.readRecord_ensures scope) ?_
    rintro b t r - - - ⟨rfl, rfl, rfl⟩
    split
    · exact .raise _
    · refine .bind (Program.addValue_ensures name hopen (hargs (name, v) (by simp))) ?_
      rintro b u - - hst - rfl
      exact ih fun p hp => (hargs p (by simp [hp])).mono hst.covers

/-- The record of the parameters is there, and everything bound in it is good. Until it is
    sealed, it is the only record that may change. -/
theorem bindArguments_ensures {f : Function} (hf : f.Valid s) {args : List Value}
    {named : List (String × Value)} (hargs : ∀ v ∈ args, v.Valid s)
    (hnamed : ∀ p ∈ named, p.2.Valid s) (location : Location) :
    (f.bindArguments args named location).Ensures base s fun _ t scope =>
      scope < t.records.size := by
  unfold bindArguments
  split
  · have hparent : ∀ p, some f.scope = some p → p < s.records.size := by
      rintro p ⟨⟩
      exact hf.scope
    refine .bind (Program.newRecord_ensures hparent) ?_
    rintro b t scope - hst - ⟨hopen, hscope⟩
    have hpositional : ∀ p ∈ f.params.zip args, p.2.Valid t := fun p hp =>
      (hargs p.2 (List.of_mem_zip hp).2).mono hst.covers
    refine .bind (bindPositional_ensures hopen hpositional) ?_
    rintro b u - - htu - rfl
    have hdefaults : ∀ p ∈ f.named, p.2 < u.cells.size := fun p hp =>
      Nat.lt_of_lt_of_le (hf.named p hp) (hst.covers.trans htu.covers).cells
    refine .bind (bindDefaults_ensures named hopen hdefaults) ?_
    rintro b v - - huv - rfl
    have hcovers := (hst.covers.trans htu.covers).trans huv.covers
    refine .bind (bindNamed_ensures location hopen fun p hp => (hnamed p hp).mono hcovers) ?_
    rintro b w - - hvw - rfl
    have hlater := (htu.covers.trans huv.covers).trans hvw.covers
    exact .pure (Nat.lt_of_lt_of_le hscope hlater.records)
  · exact .raise _

/-- A call binds good arguments in a new record, seals it and evaluates the body in it. -/
theorem apply_givesValue {f : Function} (hf : f.Valid s) {args : List Value}
    {named : List (String × Value)} (hargs : ∀ v ∈ args, v.Valid s)
    (hnamed : ∀ p ∈ named, p.2.Valid s) (path : String) (location : Location) :
    (f.apply args named path location).GivesValue base s :=
  .bind (bindArguments_ensures hf hargs hnamed location) fun _ _ _ _ _ _ hscope =>
    Program.evaluatePart_givesValue f.body hscope path _

end Function

end NetDesc
