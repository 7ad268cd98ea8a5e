import NetDesc.Evaluator
import NetDesc.Proofs.Program.Evaluator
import NetDesc.Proofs.Scoping.Program

namespace NetDesc

/-- The record is being filled for the binder, inside of the record `outer`. Nothing is evaluated
    in it until it is complete. -/
structure Binder.Opened (s : Store) (base : Nat) (b : Binder) (record outer : RecordId) :
    Prop where
  unsealed : base ≤ record
  lt : record < s.records.size
  enclosing : (s.record record).enclosing = outer :: (s.record outer).enclosing
  filled : ∀ p ∈ (s.record record).members,
    p.2.cell < s.cells.size ∧ b.Fills record outer p.1 (s.cell p.2.cell).task

namespace Binder.Opened

variable {S : Scoping} {carryOut : (c : Call) → Store → Outcome c.Reply} {base : Nat}
  {s t : Store} {b : Binder} {record outer : RecordId}

/-- Making a cell leaves the record as it is. -/
theorem later (h : b.Opened s base record outer) (hst : s.Extends base t)
    (hrecords : t.records = s.records) : b.Opened t base record outer := by
  have hsame (r : RecordId) : t.record r = s.record r := by simp only [Store.record, hrecords]
  refine ⟨h.unsealed, hrecords ▸ h.lt, by rw [hsame, hsame, h.enclosing], fun p hp => ?_⟩
  rw [hsame] at hp
  obtain ⟨hcell, hfills⟩ := h.filled p hp
  exact ⟨Nat.lt_of_lt_of_le hcell hst.covers.cells, by rwa [hst.task _ hcell]⟩

theorem addMember (h : b.Opened s base record outer) (houter : outer < base) (name : String)
    {m : Member} (hcell : m.cell < s.cells.size)
    (hfills : b.Fills record outer name (s.cell m.cell).task) :
    (Program.addMember record name m).Maintains S carryOut base s fun b' t _ =>
      b' = base ∧ b.Opened t base record outer ∧
        ∀ n, n ∈ (t.record record).names ↔ n ∈ (s.record record).names ∨ n = name := by
  refine (Program.addMember_maintains name m h.lt).imp ?_
  rintro b' t - hext - ⟨rfl, hcells, hlt, hrecord⟩
  have hsame (c : CellId) : t.cell c = s.cell c := by simp only [Store.cell, hcells]
  refine ⟨rfl, ⟨h.unsealed, hlt, ?_, fun p hp => ?_⟩,
    by rw [hrecord]; exact Record.mem_names_add _ _ _⟩
  · rw [hrecord, hext.record outer houter, Record.add_enclosing]
    exact h.enclosing
  · rw [hrecord] at hp
    rw [hcells, hsame]
    obtain rfl | ⟨hp, -⟩ := Record.mem_add hp
    · exact ⟨hcell, hfills⟩
    · exact h.filled p hp

/-- A complete record is made for its binder. -/
theorem close (h : b.Opened s base record outer)
    (hcomplete : ∀ name ∈ b.names, name ∈ (s.record record).names)
    (hdeclared : S.declaredOnly → ∀ name ∈ (s.record record).names, name ∈ b.names) :
    b.Instance S s record outer where
  enclosing := h.enclosing
  filled := h.filled
  complete name hname := Record.contains_iff_mem_names.2 (hcomplete name hname)
  declared hd p hp := hdeclared hd p.1 (List.mem_map_of_mem (Array.mem_toList_iff.2 hp))

end Binder.Opened

namespace Program

variable {S : Scoping} {carryOut : (c : Call) → Store → Outcome c.Reply} {base : Nat} {s : Store}

/-- A new record inside of another one can be filled for any binder. -/
theorem newRecord_opened (b : Binder) {outer : RecordId} (houter : outer < base) :
    (newRecord (some outer)).Maintains S carryOut base s fun b' t record =>
      b' = base ∧ b.Opened t base record outer ∧ (t.record record).names = [] := by
  refine .of_settled fun hs => (newRecord_maintains (some outer)).imp ?_
  rintro b' t record hext - ⟨rfl, rfl, hlt, hrecord⟩
  refine ⟨rfl, ⟨hs.base_le, hlt, ?_, by simp [hrecord]⟩, by simp [hrecord, Record.names]⟩
  rw [hrecord, hext.record outer houter]
  rfl

end Program

namespace Evaluator

variable {S : Scoping} {carryOut : (c : Call) → Store → Outcome c.Reply} {base : Nat} {s : Store}

/-- The members of a literal fill its record, each with its name. -/
theorem addMembers_maintains {all : List Binding} {record outer : RecordId} (houter : outer < base)
    (path : String) {members : List Binding} (hmembers : ∀ m ∈ members, m ∈ all)
    (hopened : (Binder.literal all).Opened s base record outer) :
    (addMembers record path members).Maintains S carryOut base s fun b t _ =>
      b = base ∧ (Binder.literal all).Opened t base record outer ∧
        ∀ n, n ∈ (t.record record).names ↔
          n ∈ (s.record record).names ∨ n ∈ members.map (·.name.name) := by
  induction members generalizing s with
  | nil => exact .pure ⟨rfl, hopened, by simp⟩
  | cons m rest ih =>
    rw [List.forall_mem_cons] at hmembers
    refine .bind (Program.readRecord_maintains record) ?_
    rintro b t r - - ⟨rfl, rfl, rfl⟩
    split
    · exact .raise _
    · refine .bind (Program.suspended_maintains _ _ _) ?_
      rintro b u cell htu - ⟨rfl, hrecords, hcell, htask⟩
      refine .bind ((hopened.later htu hrecords).addMember houter m.name.name hcell ?_) ?_
      · exact ⟨m, hmembers.1, rfl, _, htask⟩
      · rintro b v - - - ⟨rfl, hopened', hnames⟩
        refine (ih hmembers.2 hopened').imp ?_
        rintro b w - - - ⟨rfl, hopened'', hnames'⟩
        have hsame : u.record record = t.record record := by simp only [Store.record, hrecords]
        refine ⟨rfl, hopened'', fun n => ?_⟩
        rw [hnames', hnames, hsame, List.map_cons, List.mem_cons, or_assoc]

end Evaluator

namespace Function

variable {S : Scoping} {carryOut : (c : Call) → Store → Outcome c.Reply} {base : Nat} {s : Store}
  {params : ParamList} {body : Expr} {record outer : RecordId}

/-- A known value fills the record of a call. -/
theorem addValue_maintains (hopened : (Binder.function params body).Opened s base record outer)
    (houter : outer < base) (name : String) {v : Value} (hv : v.Placed S base s) :
    (Program.addValue record name v).Maintains S carryOut base s fun b t _ =>
      b = base ∧ (Binder.function params body).Opened t base record outer ∧
        ∀ n, n ∈ (t.record record).names ↔ n ∈ (s.record record).names ∨ n = name := by
  refine .bind (Program.ready_maintains hv) ?_
  rintro b t cell hst - ⟨rfl, hrecords, hcell, htask⟩
  have hsame : t.record record = s.record record := by simp only [Store.record, hrecords]
  refine ((hopened.later hst hrecords).addMember houter name hcell (.inl ⟨v, htask⟩)).imp ?_
  rintro b u - - - ⟨rfl, hopened', hnames⟩
  exact ⟨rfl, hopened', hsame ▸ hnames⟩

theorem bindPositional_maintains (houter : outer < base) {args : List (String × Value)}
    (hopened : (Binder.function params body).Opened s base record outer)
    (hargs : ∀ p ∈ args, p.2.Placed S base s) :
    (bindPositional record args).Maintains S carryOut base s fun b t _ =>
      b = base ∧ (Binder.function params body).Opened t base record outer ∧
        ∀ n, n ∈ (t.record record).names ↔
          n ∈ (s.record record).names ∨ n ∈ args.map (·.1) := by
  induction args generalizing s with
  | nil => exact .pure ⟨rfl, hopened, by simp⟩
  | cons arg args ih =>
    rw [List.forall_mem_cons] at hargs
    refine .bind (addValue_maintains hopened houter arg.1 hargs.1) ?_
    rintro b t - hst - ⟨rfl, hopened', hnames⟩
    refine (ih hopened' fun p hp => (hargs.2 p hp).later hst (Nat.le_refl _)).imp ?_
    rintro b u - - - ⟨rfl, hopened'', hnames'⟩
    refine ⟨rfl, hopened'', fun n => ?_⟩
    rw [hnames', hnames, List.map_cons, List.mem_cons, or_assoc]

theorem bindNamed_maintains (houter : outer < base) (location : Location)
    {args : List (String × Value)}
    (hopened : (Binder.function params body).Opened s base record outer)
    (hargs : ∀ p ∈ args, p.2.Placed S base s) :
    (bindNamed record location args).Maintains S carryOut base s fun b t _ =>
      b = base ∧ (Binder.function params body).Opened t base record outer ∧
        ∀ n, n ∈ (t.record record).names ↔
          n ∈ (s.record record).names ∨ n ∈ args.map (·.1) := by
  induction args generalizing s with
  | nil => exact .pure ⟨rfl, hopened, by simp⟩
  | cons arg args ih =>
    rw [List.forall_mem_cons] at hargs
    refine .bind (Program.readRecord_maintains record) ?_
    rintro b t r - - ⟨rfl, rfl, rfl⟩
    split
    · exact .raise _
    · refine .bind (addValue_maintains hopened houter arg.1 hargs.1) ?_
      rintro b u - htu - ⟨rfl, hopened', hnames⟩
      refine (ih hopened' fun p hp => (hargs.2 p hp).later htu (Nat.le_refl _)).imp ?_
      rintro b v - - - ⟨rfl, hopened'', hnames'⟩
      refine ⟨rfl, hopened'', fun n => ?_⟩
      rw [hnames', hnames, List.map_cons, List.mem_cons, or_assoc]

/-- Every default is in the record afterwards, unless something is passed for it, and nothing but
    defaults is added. -/
theorem bindDefaults_maintains (houter : outer < base) (passed : List (String × Value))
    {named : List (String × CellId)}
    (hopened : (Binder.function params body).Opened s base record outer)
    (hnamed : ∀ p ∈ named, p.2 < s.cells.size ∧ ∃ d ∈ params.named, d.name.name = p.1 ∧
      ∃ path, (s.cell p.2).task = .evaluate d.value outer path) :
    (bindDefaults record passed named).Maintains S carryOut base s fun b t _ =>
      b = base ∧ (Binder.function params body).Opened t base record outer ∧
        (∀ name ∈ (s.record record).names, name ∈ (t.record record).names) ∧
        (∀ p ∈ named, p.1 ∈ (t.record record).names ∨ p.1 ∈ passed.map (·.1)) ∧
        ∀ name ∈ (t.record record).names,
          name ∈ (s.record record).names ∨ name ∈ named.map (·.1) := by
  induction named generalizing s with
  | nil => exact .pure ⟨rfl, hopened, fun _ h => h, by simp, fun _ h => .inl h⟩
  | cons p named ih =>
    obtain ⟨name, cell⟩ := p
    rw [List.forall_mem_cons] at hnamed
    obtain ⟨⟨hcell, hdefault⟩, hrest⟩ := hnamed
    refine .bind (Program.readRecord_maintains record) ?_
    rintro b t r - - ⟨rfl, rfl, rfl⟩
    split
    · next hthere =>
      rw [Bool.or_eq_true, Record.contains_iff_mem_names] at hthere
      have hpassed : passed.any (·.1 == name) = true ↔ name ∈ passed.map (·.1) := by simp
      rw [hpassed] at hthere
      refine (ih hopened hrest).imp ?_
      rintro b u - - - ⟨rfl, hopened', hkept, hcomplete, hadded⟩
      refine ⟨rfl, hopened', hkept, ?_, fun n hn => ?_⟩
      · rw [List.forall_mem_cons]
        exact ⟨hthere.symm.imp_left (hkept name), hcomplete⟩
      · exact (hadded n hn).imp_right (List.mem_cons_of_mem name)
    · refine .bind (Program.readCell_maintains cell) ?_
      rintro b t c - - ⟨rfl, rfl, rfl⟩
      obtain ⟨d, hd, hname, htask⟩ := hdefault
      refine .bind (hopened.addMember houter name hcell (.inr ⟨d, hd, hname, htask⟩)) ?_
      rintro b u - htu - ⟨rfl, hopened', hnames⟩
      refine (ih hopened' fun p hp => ?_).imp ?_
      · obtain ⟨hlt, d, hd, hname, path, htask⟩ := hrest p hp
        refine ⟨Nat.lt_of_lt_of_le hlt htu.covers.cells, d, hd, hname, path, ?_⟩
        rw [htu.task _ hlt, htask]
      · rintro b v - - - ⟨rfl, hopened'', hkept, hcomplete, hadded⟩
        refine ⟨rfl, hopened'', fun n hn => hkept n ((hnames n).2 (.inl hn)), ?_, fun n hn => ?_⟩
        · rw [List.forall_mem_cons]
          exact ⟨.inl (hkept name ((hnames name).2 (.inr rfl))), hcomplete⟩
        · have := hadded n hn
          rw [hnames] at this
          simp only [List.map_cons, List.mem_cons] at this ⊢
          tauto

/-- A call makes a scope in which the body is placed. -/
theorem bindArguments_maintains {f : Function} (hf : f.Placed S base s) {args : List Value}
    {named : List (String × Value)} (hargs : ∀ v ∈ args, v.Placed S base s)
    (hnamed : ∀ p ∈ named, p.2.Placed S base s)
    (hdeclared : S.declaredOnly → ∀ p ∈ named, p.1 ∈ f.named.map (·.1)) (location : Location) :
    (f.bindArguments args named location).Maintains S carryOut base s fun _ t scope =>
      f.body.Placed S t.records.size t scope := by
  obtain ⟨params, place, htakes, hplaced⟩ := hf
  have houter : f.scope < base := by
    obtain ⟨root, layers, -, -, hnested⟩ := hplaced
    exact hnested.lt
  unfold bindArguments
  split
  · next harity =>
    refine .bind (Program.newRecord_opened (.function params f.body) houter) ?_
    rintro b t record hst - ⟨rfl, hopened, hempty⟩
    have hpositional : ∀ p ∈ f.params.zip args, p.2.Placed S b t := fun p hp =>
      (hargs p.2 (List.of_mem_zip hp).2).later hst (Nat.le_refl _)
    refine .bind (bindPositional_maintains houter hopened hpositional) ?_
    rintro b u - htu - ⟨rfl, hopened, hnames⟩
    replace hnames (n : String) : n ∈ (u.record record).names ↔ n ∈ f.params := by
      rw [hnames, hempty, List.map_fst_zip (Nat.le_of_eq harity.symm)]
      simp
    have hsu := hst.trans htu (Nat.le_refl _)
    refine .bind (bindDefaults_maintains houter named hopened (htakes.later hsu).named) ?_
    rintro b v - huv - ⟨rfl, hopened, hkept, hcomplete, hadded⟩
    have hsv := hsu.trans huv (Nat.le_refl _)
    have hpassed : ∀ p ∈ named, p.2.Placed S b v := fun p hp =>
      (hnamed p hp).later hsv (Nat.le_refl _)
    refine .bind (bindNamed_maintains houter location hopened hpassed) ?_
    rintro b w - hvw - ⟨rfl, hopened, hnames'⟩
    have hsw := hsv.trans hvw (Nat.le_refl _)
    have hsealed : b ≤ w.records.size := Nat.le_trans hopened.unsealed (Nat.le_of_lt hopened.lt)
    have hinstance : (Binder.function params f.body).Instance S w record f.scope := by
      refine hopened.close (fun name hname => ?_) fun hd name hname => ?_
      · rw [hnames']
        obtain hname | hname := List.mem_append.1 hname
        · refine .inl (hkept name ?_)
          rw [hnames, htakes.positional]
          exact hname
        · obtain ⟨d, hd, rfl⟩ := List.mem_map.1 hname
          obtain ⟨p, hp, hname⟩ := htakes.complete d hd
          rw [← hname]
          exact hcomplete p hp
      · have hdefault {name : String} (h : name ∈ f.named.map (·.1)) :
            name ∈ params.named.map (·.name.name) := by
          obtain ⟨p, hp, rfl⟩ := List.mem_map.1 h
          obtain ⟨-, d, hd, hname, -⟩ := htakes.named p hp
          exact hname ▸ List.mem_map_of_mem hd
        rw [hnames'] at hname
        refine List.mem_append.2 ?_
        obtain hname | hname := hname
        · refine (hadded name hname).imp (fun h => ?_) hdefault
          rw [hnames, htakes.positional] at h
          exact h
        · obtain ⟨p, hp, rfl⟩ := List.mem_map.1 hname
          exact .inr (hdefault (hdeclared hd p hp))
    refine .pure ((hplaced.later hsw hsealed).inside ?_ hopened.lt hinstance)
    exact List.mem_cons_self
  · exact .raise _

/-- A call gives a placed value. -/
theorem apply_maintains {f : Function} (hf : f.Placed S base s) {args : List Value}
    {named : List (String × Value)} (hargs : ∀ v ∈ args, v.Placed S base s)
    (hnamed : ∀ p ∈ named, p.2.Placed S base s)
    (hdeclared : S.declaredOnly → ∀ p ∈ named, p.1 ∈ f.named.map (·.1)) (path : String)
    (location : Location) :
    (f.apply args named path location).Maintains S carryOut base s fun b t v =>
      v.Placed S b t :=
  .bind (bindArguments_maintains hf hargs hnamed hdeclared location) fun _ _ _ _ _ hbody =>
    .call hbody fun _ _ _ _ hanswer => hanswer

end Function

end NetDesc
