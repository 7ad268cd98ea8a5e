import NetDesc.Proofs.Recurrence.Ends
import NetDesc.Proofs.Scoping.Scopes

namespace NetDesc

namespace Store

/-- Everything of `s` is in `t` as it was, apart from cells with a computation of the kind
    `changing` that were pending: they may have been computed. -/
structure Later (changing : Task → Prop) (s t : Store) : Prop where
  cells : s.cells.size ≤ t.cells.size
  records : s.records.size ≤ t.records.size
  nodes : s.nodes.size ≤ t.nodes.size
  cell : ∀ c < s.cells.size, t.cell c = s.cell c ∨
    changing (s.cell c).task ∧ (s.cell c).progress = .pending ∧
      ∃ v, t.cell c = { s.cell c with progress := .finished v }
  record : ∀ r < s.records.size, t.record r = s.record r
  node : ∀ n < s.nodes.size, t.node n = s.node n

namespace Later

variable {changing : Task → Prop} {s t u : Store}

theorem refl (changing : Task → Prop) (s : Store) : s.Later changing s where
  cells := Nat.le_refl _
  records := Nat.le_refl _
  nodes := Nat.le_refl _
  cell _ _ := .inl rfl
  record _ _ := rfl
  node _ _ := rfl

theorem trans (hst : s.Later changing t) (htu : t.Later changing u) : s.Later changing u where
  cells := Nat.le_trans hst.cells htu.cells
  records := Nat.le_trans hst.records htu.records
  nodes := Nat.le_trans hst.nodes htu.nodes
  cell c hc := by
    have hct := Nat.lt_of_lt_of_le hc hst.cells
    rcases htu.cell c hct with hu | ⟨hchanging, hpending, v, hu⟩ <;>
      rcases hst.cell c hc with ht | ⟨hchanging', hpending', w, ht⟩
    · exact .inl (hu.trans ht)
    · exact .inr ⟨hchanging', hpending', w, hu.trans ht⟩
    · rw [ht] at hchanging hpending hu
      exact .inr ⟨hchanging, hpending, v, hu⟩
    · rw [ht] at hpending
      cases hpending
  record r hr := (htu.record r (Nat.lt_of_lt_of_le hr hst.records)).trans (hst.record r hr)
  node n hn := (htu.node n (Nat.lt_of_lt_of_le hn hst.nodes)).trans (hst.node n hn)

/-- Where no cell has been computed, none has been that must not be. -/
theorem weaken (h : s.Later (fun _ => False) t) : s.Later changing t :=
  { h with cell := fun c hc => (h.cell c hc).imp_right fun hnew => hnew.1.elim }

section Cells

variable {c : CellId} (h : s.Later changing t)

include h

theorem task (hc : c < s.cells.size) : (t.cell c).task = (s.cell c).task := by
  rcases h.cell c hc with heq | ⟨-, -, v, heq⟩ <;> rw [heq]

theorem running_iff (hc : c < s.cells.size) :
    (t.cell c).progress = .running ↔ (s.cell c).progress = .running := by
  rcases h.cell c hc with heq | ⟨-, hpending, v, heq⟩
  · rw [heq]
  · simp [heq, hpending]

theorem finished (hc : c < s.cells.size) {v : Value} (hv : (s.cell c).progress = .finished v) :
    (t.cell c).progress = .finished v := by
  rcases h.cell c hc with heq | ⟨-, hpending, w, heq⟩
  · rw [heq, hv]
  · rw [hpending] at hv
    cases hv

/-- A cell of another kind is as it was. -/
theorem unchanged (hc : c < s.cells.size) (hkind : ¬changing (s.cell c).task) :
    t.cell c = s.cell c :=
  (h.cell c hc).resolve_right fun hnew => hkind hnew.1

end Cells

section Steps

variable (h : s.Later changing t)

include h

theorem newCell (c : Cell) : s.Later changing { t with cells := t.cells.push c } :=
  { h with
    cells := by simpa using Nat.le_succ_of_le h.cells
    cell := fun id hid => by
      rw [cell_push, if_neg (Nat.ne_of_lt (Nat.lt_of_lt_of_le hid h.cells))]
      exact h.cell id hid }

theorem newRecord (r : Record) : s.Later changing { t with records := t.records.push r } :=
  { h with
    records := by simpa using Nat.le_succ_of_le h.records
    record := fun id hid => by
      rw [record_push, if_neg (Nat.ne_of_lt (Nat.lt_of_lt_of_le hid h.records))]
      exact h.record id hid }

/-- Newer records may still change. -/
theorem modifyRecord {r : RecordId} (hr : s.records.size ≤ r) (f : Record → Record) :
    s.Later changing { t with records := t.records.modify r f } :=
  { h with
    records := by simpa using h.records
    record := fun id hid => by
      have hne : r ≠ id := (Nat.ne_of_lt (Nat.lt_of_lt_of_le hid hr)).symm
      rw [record_modify, if_neg (not_and_of_not_left _ hne)]
      exact h.record id hid }

theorem newNode (n : Node) : s.Later changing { t with nodes := t.nodes.push n } :=
  { h with
    nodes := by simpa using Nat.le_succ_of_le h.nodes
    node := fun id hid => by
      rw [node_push, if_neg (Nat.ne_of_lt (Nat.lt_of_lt_of_le hid h.nodes))]
      exact h.node id hid }

/-- Newer nodes may still change. -/
theorem modifyNode {n : NodeId} (hn : s.nodes.size ≤ n) (f : Node → Node) :
    s.Later changing { t with nodes := t.nodes.modify n f } :=
  { h with
    nodes := by simpa using h.nodes
    node := fun id hid => by
      have hne : n ≠ id := (Nat.ne_of_lt (Nat.lt_of_lt_of_le hid hn)).symm
      rw [node_modify, if_neg (not_and_of_not_left _ hne)]
      exact h.node id hid }

/-- Newer cells may be in any state. -/
theorem setProgress {c : CellId} (hc : s.cells.size ≤ c) (p : Progress) :
    s.Later changing (t.setProgress c p) :=
  { h with
    cells := by simpa using h.cells
    cell := fun id hid => by
      have hne : c ≠ id := (Nat.ne_of_lt (Nat.lt_of_lt_of_le hid hc)).symm
      rw [setProgress_cell_of_ne hne]
      exact h.cell id hid }

end Steps

/-- The computation of a pending cell of the kind is, from outside, a step as any other. -/
theorem settle {c : CellId} (hpending : (s.cell c).progress = .pending)
    (hkind : changing (s.cell c).task) (h : (s.setProgress c .running).Later changing t)
    (v : Value) : s.Later changing (t.setProgress c (.finished v)) :=
  { h with
    cells := by simpa using h.cells
    cell := fun id hid => by
      have hid' : id < (s.setProgress c .running).cells.size := by simpa using hid
      have hcell := h.cell id hid'
      have hlt : id < t.cells.size := Nat.lt_of_lt_of_le hid' h.cells
      rw [setProgress_cell] at hcell ⊢
      by_cases heq : c = id
      · subst heq
        simp only [hid, hlt, and_self, if_true, reduceCtorEq, false_and, and_false,
          or_false] at hcell ⊢
        exact .inr ⟨hkind, hpending, v, by rw [hcell]⟩
      · simpa [heq] using hcell }

end Later

/-- The record `r` holds the member of a literal at `path` in a cell that is not among the first
    `old` ones and that has not been accessed. -/
structure Holds (s : Store) (r : RecordId) (path : String) (old : Nat) (b : Binding)
    (m : Member) : Prop where
  found : (s.record r).find? b.name.name = some m
  new : old ≤ m.cell
  inside : m.cell < s.cells.size
  cell : s.cell m.cell = .suspended (.evaluate b.value r (joinPath path b.name.name))
    b.value.location (joinPath path b.name.name)

namespace Holds

variable {s : Store} {r : RecordId} {path : String} {old : Nat} {b b' : Binding} {m m' : Member}

theorem pending (h : s.Holds r path old b m) : (s.cell m.cell).progress = .pending := by
  rw [h.cell]
  rfl

theorem task (h : s.Holds r path old b m) :
    (s.cell m.cell).task = .evaluate b.value r (joinPath path b.name.name) := by
  rw [h.cell]
  rfl

/-- Different values are in different cells. -/
theorem cell_ne (h : s.Holds r path old b m) (h' : s.Holds r path old b' m')
    (hkind : b.value.kind ≠ b'.value.kind) : m.cell ≠ m'.cell := by
  intro heq
  have htask := h.task
  rw [heq, h'.task] at htask
  exact hkind (congrArg Expr.kind (Task.evaluate.inj htask).1.symm)

/-- Other cells may be computed. -/
theorem setProgress (h : s.Holds r path old b m) {c : CellId} (hc : c ≠ m.cell) (p : Progress) :
    (s.setProgress c p).Holds r path old b m :=
  { h with
    inside := by simpa using h.inside
    cell := by rw [setProgress_cell_of_ne hc, h.cell] }

end Holds

/-- In `t` the record `r` has got these members. -/
structure Fills (r : RecordId) (path : String) (members : List Binding) (s t : Store) : Prop where
  /-- From where the record is new, nothing has changed. -/
  later : ∀ {changing : Task → Prop} {u : Store}, u.Later changing s → u.records.size ≤ r →
    u.Later changing t
  cells : s.cells.size ≤ t.cells.size
  cell : ∀ c < s.cells.size, t.cell c = s.cell c
  inside : r < t.records.size
  enclosing : (t.record r).enclosing = (s.record r).enclosing
  names : (t.record r).names = (s.record r).names ++ members.map (·.name.name)
  found : ∀ name m, (s.record r).find? name = some m → (t.record r).find? name = some m
  holds : ∀ b ∈ members, ∃ m, t.Holds r path s.cells.size b m

namespace Fills

variable {r : RecordId} {path : String} {s t u : Store}

theorem refl (hr : r < s.records.size) : s.Fills r path [] s where
  later h _ := h
  cells := Nat.le_refl _
  cell _ _ := rfl
  inside := hr
  enclosing := rfl
  names := by simp
  found _ _ h := h
  holds := by simp

theorem trans {first rest : List Binding} (hst : s.Fills r path first t)
    (htu : t.Fills r path rest u) : s.Fills r path (first ++ rest) u where
  later h hr := htu.later (hst.later h hr) hr
  cells := Nat.le_trans hst.cells htu.cells
  cell c hc := (htu.cell c (Nat.lt_of_lt_of_le hc hst.cells)).trans (hst.cell c hc)
  inside := htu.inside
  enclosing := htu.enclosing.trans hst.enclosing
  names := by rw [htu.names, hst.names, List.map_append, List.append_assoc]
  found name m h := htu.found name m (hst.found name m h)
  holds b hb := by
    rcases List.mem_append.1 hb with hb | hb
    · obtain ⟨m, hm⟩ := hst.holds b hb
      exact ⟨m, htu.found _ _ hm.found, hm.new, Nat.lt_of_lt_of_le hm.inside htu.cells,
        (htu.cell _ hm.inside).trans hm.cell⟩
    · obtain ⟨m, hm⟩ := htu.holds b hb
      exact ⟨m, { hm with new := Nat.le_trans hst.cells hm.new }⟩

/-- A member with a new name is added last, with a new cell. -/
theorem add (hr : r < s.records.size) {b : Binding} (hnew : b.name.name ∉ (s.record r).names) :
    let inside := joinPath path b.name.name
    let c : Cell := .suspended (.evaluate b.value r inside) b.value.location inside
    let m : Member := { location := b.name.location, cell := s.cells.size }
    s.Fills r path [b] { s with
      cells := s.cells.push c
      records := s.records.modify r (·.add b.name.name m) } := by
  intro inside c m
  have hrecord : ({ s with
      cells := s.cells.push c
      records := s.records.modify r (·.add b.name.name m) } : Store).record r =
        (s.record r).add b.name.name m := by
    refine (record_modify _ _ r r).trans (if_pos ⟨rfl, hr⟩)
  refine {
    later := fun h hle => (h.newCell c).modifyRecord hle _
    cells := by simp
    cell := fun k hk => (cell_push s c k).trans (if_neg (Nat.ne_of_lt hk))
    inside := by simpa using hr
    enclosing := by rw [hrecord, Record.add_enclosing]
    names := by simp [hrecord, Record.add_of_not_mem m hnew, Record.names]
    found := fun name n hn => by
      rw [hrecord, Record.find?_add, if_neg, hn]
      rintro rfl
      rw [Record.find?_eq_none_of_not_mem hnew] at hn
      cases hn
    holds := ?_ }
  intro b' hb'
  obtain rfl := List.mem_singleton.1 hb'
  refine ⟨m, ?_, Nat.le_refl _, by simp [m], (cell_push s c _).trans (if_pos rfl)⟩
  rw [hrecord, Record.find?_add, if_pos rfl]

end Fills

/-- In `t` there is a new record `r` inside `outer` with the members of a literal at `path`. -/
structure Lays (outer : RecordId) (path : String) (members : List Binding) (s : Store)
    (r : RecordId) (t : Store) : Prop where
  later : ∀ {changing : Task → Prop} {u : Store}, u.Later changing s → u.Later changing t
  new : s.records.size ≤ r
  inside : r < t.records.size
  enclosing : (t.record r).enclosing = outer :: (s.record outer).enclosing
  names : (t.record r).names = members.map (·.name.name)
  holds : ∀ b ∈ members, ∃ m, t.Holds r path s.cells.size b m

/-- A name that a record does not have is looked up in the record around it. -/
theorem find?_outside {s : Store} {r outer : RecordId} {rest : List RecordId} {name : String}
    {m : Member} (henclosing : (s.record r).enclosing = outer :: rest)
    (hinside : (s.record r).find? name = none) (hm : (s.record outer).find? name = some m) :
    s.find? r name = some m := by
  rw [find?, henclosing, List.findSome?_cons, hinside]
  simp only [List.findSome?_cons, hm]

end Store

namespace Program.Ends

variable {ev : Evaluator} {depth : Nat} {s : Store} {E : Prop} {P : Store → Value → Prop}
  {r : RecordId} {name : String} {m : Member}

theorem field (hm : (s.record r).find? name = some m)
    (h : (Program.force m.cell).Ends ev depth s P E) :
    (Program.field r name).Ends ev depth s P E := by
  refine h.congr fun carryOut => ?_
  change (forceFound (((s.record r).find? name).map (·.cell)) _).run carryOut s = _
  rw [hm]
  rfl

theorem optionalField_none {P : Store → Option Value → Prop}
    (hname : (s.record r).find? name = none) (hP : P s none) :
    (Program.optionalField r name).Ends ev depth s P E := by
  refine .bind (P := fun t found => t = s ∧ found = none) (.after (.pure ⟨rfl, ?_⟩)) ?_
  · exact congrArg (Option.map _) hname
  · rintro _ _ ⟨rfl, rfl⟩
    exact .pure hP

theorem lookup (hm : s.find? r name = some m) (location : Location)
    (h : (Program.force m.cell).Ends ev depth s P E) :
    (Program.lookup r name location).Ends ev depth s P E := by
  refine h.congr fun carryOut => ?_
  change (forceFound ((s.find? r name).map (·.cell)) _).run carryOut s = _
  rw [hm]
  rfl

/-- A literal stands for a value of its own. -/
theorem field_literal {path : String} {old : Nat} {b : Binding} {payload : Payload}
    (hm : s.Holds r path old b m) (hname : b.name.name = name) (hdepth : depth < ev.maxDepth)
    (hvalue : ∀ location scope path,
      ev.evaluateKind b.value.kind location scope path = Pure.pure ⟨payload, location, path⟩)
    (hP : ∀ v, v.payload = payload →
      P ((s.setProgress m.cell .running).setProgress m.cell (.finished v)) v) :
    (Program.field r name).Ends ev depth s P E := by
  refine field (hname ▸ hm.found) (force_pending hm.pending ?_)
  rw [hm.task]
  refine evaluate hdepth ?_
  rw [hvalue]
  exact .pure (hP _ rfl)

end Program.Ends

namespace Evaluator

variable {ev : Evaluator} {depth : Nat} {E : Prop}

/-- Members with different names fill a record. -/
theorem addMembers_ends {r : RecordId} {path : String} {members : List Binding} {s : Store}
    (hr : r < s.records.size) (hdistinct : (members.map (·.name.name)).Nodup)
    (hnew : ∀ b ∈ members, b.name.name ∉ (s.record r).names) :
    (addMembers r path members).Ends ev depth s (fun t _ => s.Fills r path members t) E := by
  induction members generalizing s with
  | nil => exact .pure (.refl hr)
  | cons b members ih =>
    rw [List.map_cons, List.nodup_cons] at hdistinct
    rw [List.forall_mem_cons] at hnew
    have hfirst : s.Fills r path [b] _ := .add hr hnew.1
    have hadd := Record.contains_iff_mem_names.not.2 hnew.1
    rw [addMembers]
    refine .readRecord ?_
    rw [if_neg hadd]
    refine .after (.after ((ih hfirst.inside hdistinct.2 ?_).imp (fun t _ h => hfirst.trans h) id))
    intro b' hb' hmem
    rw [hfirst.names] at hmem
    rcases List.mem_append.1 hmem with hmem | hmem
    · exact hnew.2 b' hb' hmem
    · have heq : b'.name.name = b.name.name := by simpa using hmem
      exact hdistinct.1 (heq ▸ List.mem_map_of_mem hb')

/-- A record literal is laid out as a new record with a cell for each member, all of them
    pending. -/
theorem evaluate_record_ends {e : Expr} {members : List Binding} (he : e.kind = .record members)
    (hdistinct : (members.map (·.name.name)).Nodup) (hdepth : depth < ev.maxDepth) (s : Store)
    (outer : RecordId) (path : String) :
    (Program.evaluate e outer path).Ends ev depth s
      (fun t v => ∃ r, v.payload = .record r ∧ s.Lays outer path members r t) E := by
  refine .evaluate hdepth ?_
  rw [he]
  refine .after ?_
  let start : Record := { enclosing := outer :: (s.record outer).enclosing }
  let opened : Store := { s with records := s.records.push start }
  change Program.Ends ev (depth + 1) (addMembers s.records.size path members >>= fun _ =>
    pure (Value.record s.records.size e.location path)) opened _ E
  have hrecord : opened.record s.records.size = start :=
    (Store.record_push s start _).trans (if_pos rfl)
  have hnone : start.names = [] := rfl
  have hinside : s.records.size < opened.records.size := by simp [opened]
  refine .bind (addMembers_ends hinside hdistinct (by simp [hrecord, hnone])) ?_
  intro t _ hfills
  refine .pure ⟨s.records.size, rfl, ?_⟩
  exact {
    later := fun h => hfills.later (h.newRecord start) h.records
    new := Nat.le_refl _
    inside := hfills.inside
    enclosing := by rw [hfills.enclosing, hrecord]
    names := by rw [hfills.names, hrecord, hnone, List.nil_append]
    holds := hfills.holds }

end Evaluator

end NetDesc
