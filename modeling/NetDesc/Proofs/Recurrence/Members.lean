import NetDesc.Proofs.Recurrence.Design
import NetDesc.Proofs.Recurrence.Layout

namespace NetDesc

/-- Whether a computation evaluates something in the record `r`. -/
def Task.In (r : RecordId) (task : Task) : Prop :=
  ∃ e path, task = .evaluate e r path

namespace Store

/-- The member `a` of the record `r` has been computed and is the node `k`. -/
def MemberIs (s : Store) (r : RecordId) (a : String) (k : NodeId) : Prop :=
  ∃ m v, (s.record r).find? a = some m ∧ m.cell < s.cells.size ∧
    (s.cell m.cell).progress = .finished v ∧ v.payload = .object (.node k)

/-- The cell `c` has given the node of the member `a` of `r`. -/
def Gives (s : Store) (r : RecordId) (a : String) (c : CellId) : Prop :=
  c < s.cells.size ∧ ∃ v k, (s.cell c).progress = .finished v ∧ v.payload = .object (.node k) ∧
    s.MemberIs r a k

/-- In the record `fields` the name `a` stands for the member of `r`. -/
structure Sees (s : Store) (fields r : RecordId) (a : String) : Prop where
  inside : fields < s.records.size
  ne : fields ≠ r
  enclosing : ∃ rest, (s.record fields).enclosing = r :: rest
  free : (s.record fields).find? a = none

/-- The cell `c` is to give, or has given, the node of the member `a` of `r`. -/
structure Awaits (s : Store) (r : RecordId) (a : String) (c : CellId) : Prop where
  inside : c < s.cells.size
  task : ∃ e fields path, (s.cell c).task = .evaluate e fields path ∧ e.kind = .var a ∧
    s.Sees fields r a
  progress : (s.cell c).progress = .pending ∨ s.Gives r a c

/-- `x` is as designed and has all its inputs, which were there before it. Only the input of a
    delay may have to wait, in a cell that is not touched until the network is tied together. -/
def Wired (s : Store) (r : RecordId) (name : String) (n : NodeDesign) (x : Node) : Prop :=
  ∃ ids, x = n.node name ids ∧ List.Forall₂ (s.MemberIs r) n.inputs ids

/-- `x` is as designed, a delay that waits for its input. -/
def Waits (s : Store) (r : RecordId) (name : String) (n : NodeDesign) (x : Node) : Prop :=
  ∃ input deltaT c, n = .delay input deltaT ∧
    x = { n.node name [] with pendingInput := some c } ∧ s.Awaits r input c

/-- The node `k` is that of the member `a` and was made after those that it requires. -/
structure Made (s : Store) (r : RecordId) (a : String) (n : NodeDesign) (k : NodeId) : Prop where
  inside : k < s.nodes.size
  node : s.Wired r a n (s.node k) ∨ s.Waits r a n (s.node k)
  before : ∀ b ∈ n.prerequisites, ∃ i < k, s.MemberIs r b i

variable {s t : Store} {r : RecordId} {a : String} {n : NodeDesign} {k : NodeId} {c : CellId}

theorem MemberIs.unique {k' : NodeId} (h : s.MemberIs r a k) (h' : s.MemberIs r a k') :
    k = k' := by
  obtain ⟨m, v, hm, -, hv, hk⟩ := h
  obtain ⟨m', v', hm', -, hv', hk'⟩ := h'
  obtain rfl : m = m' := Option.some.inj (hm.symm.trans hm')
  obtain rfl : v = v' := by
    rw [hv] at hv'
    cases hv'
    rfl
  rw [hk] at hk'
  cases hk'
  rfl

section Later

variable {changing : Task → Prop} (hst : s.Later changing t) (hr : r < s.records.size)

include hst hr

theorem MemberIs.later (h : s.MemberIs r a k) : t.MemberIs r a k := by
  obtain ⟨m, v, hm, hlt, hv, hk⟩ := h
  exact ⟨m, v, by rwa [hst.record r hr], Nat.lt_of_lt_of_le hlt hst.cells, hst.finished hlt hv, hk⟩

theorem Gives.later (h : s.Gives r a c) : t.Gives r a c := by
  obtain ⟨hlt, v, k, hv, hk, hmember⟩ := h
  exact ⟨Nat.lt_of_lt_of_le hlt hst.cells, v, k, hst.finished hlt hv, hk, hmember.later hst hr⟩

theorem Wired.later {x : Node} (h : s.Wired r a n x) : t.Wired r a n x := by
  obtain ⟨ids, hx, hinputs⟩ := h
  exact ⟨ids, hx, hinputs.imp fun _ _ hi => hi.later hst hr⟩

omit hr in
theorem Sees.later {fields : RecordId} (h : s.Sees fields r a) : t.Sees fields r a where
  inside := Nat.lt_of_lt_of_le h.inside hst.records
  ne := h.ne
  enclosing := by rw [hst.record _ h.inside]; exact h.enclosing
  free := by rw [hst.record _ h.inside]; exact h.free

end Later

theorem Awaits.not_in (h : s.Awaits r a c) : ¬Task.In r (s.cell c).task := by
  obtain ⟨e, fields, path, htask, -, hsees⟩ := h.task
  rintro ⟨e', path', htask'⟩
  rw [htask'] at htask
  cases htask
  exact hsees.ne rfl

section Members

variable (hst : s.Later (Task.In r) t) (hr : r < s.records.size)

include hst hr

theorem Awaits.later (h : s.Awaits r a c) : t.Awaits r a c := by
  have hcell := hst.unchanged h.inside h.not_in
  obtain ⟨e, fields, path, htask, he, hsees⟩ := h.task
  refine ⟨Nat.lt_of_lt_of_le h.inside hst.cells, ?_, ?_⟩
  · exact ⟨e, fields, path, by rw [hcell, htask], he, hsees.later hst⟩
  · rw [hcell]
    exact h.progress.imp_right (·.later hst hr)

theorem Waits.later {x : Node} (h : s.Waits r a n x) : t.Waits r a n x := by
  obtain ⟨input, deltaT, c, hn, hx, hawaits⟩ := h
  exact ⟨input, deltaT, c, hn, hx, hawaits.later hst hr⟩

theorem Made.later (h : s.Made r a n k) : t.Made r a n k where
  inside := Nat.lt_of_lt_of_le h.inside hst.nodes
  node := by
    rw [hst.node k h.inside]
    exact h.node.imp (·.later hst hr) (·.later hst hr)
  before b hb := by
    obtain ⟨i, hi, hmember⟩ := h.before b hb
    exact ⟨i, hi, hmember.later hst hr⟩

end Members

theorem Wired.named {x : Node} (h : s.Wired r "" n x) (a : String) :
    s.Wired r a n { x with name := a } := by
  obtain ⟨ids, rfl, hinputs⟩ := h
  exact ⟨ids, rfl, hinputs⟩

theorem Waits.named {x : Node} (h : s.Waits r "" n x) (a : String) :
    s.Waits r a n { x with name := a } := by
  obtain ⟨input, deltaT, c, hn, rfl, hawaits⟩ := h
  exact ⟨input, deltaT, c, hn, rfl, hawaits⟩

/-- Cells that have given the nodes of members have them as values. -/
theorem exists_values_of_gives {names : List String} {cells : List CellId}
    (h : List.Forall₂ (s.Gives r) names cells) :
    ∃ values ids, List.Forall₂ (fun c v => (s.cell c).progress = .finished v) cells values ∧
      List.Forall₂ (fun v k => v.payload = .object (.node k)) values ids ∧
      List.Forall₂ (s.MemberIs r) names ids := by
  induction h with
  | nil => exact ⟨[], [], .nil, .nil, .nil⟩
  | cons hc _ ih =>
    obtain ⟨-, v, k, hv, hk, hmember⟩ := hc
    obtain ⟨values, ids, hvalues, hids, hmembers⟩ := ih
    exact ⟨v :: values, k :: ids, .cons hv hvalues, .cons hk hids, .cons hmember hmembers⟩

section Progress

theorem Sees.setProgress {fields : RecordId} (h : s.Sees fields r a) (p : Progress) :
    (s.setProgress c p).Sees fields r a :=
  ⟨h.inside, h.ne, h.enclosing, h.free⟩

variable {p : Progress} (hunfinished : ∀ v, (s.cell c).progress ≠ .finished v)

include hunfinished

theorem MemberIs.setProgress (h : s.MemberIs r a k) : (s.setProgress c p).MemberIs r a k := by
  obtain ⟨m, v, hm, hlt, hv, hk⟩ := h
  have hne : c ≠ m.cell := fun heq => hunfinished v (heq ▸ hv)
  refine ⟨m, v, hm, by simpa using hlt, ?_, hk⟩
  rwa [setProgress_cell_of_ne hne]

theorem Gives.setProgress {given : CellId} (h : s.Gives r a given) :
    (s.setProgress c p).Gives r a given := by
  obtain ⟨hlt, v, k, hv, hk, hmember⟩ := h
  have hne : c ≠ given := fun heq => hunfinished v (heq ▸ hv)
  refine ⟨by simpa using hlt, v, k, ?_, hk, hmember.setProgress hunfinished⟩
  rwa [setProgress_cell_of_ne hne]

theorem Awaits.setProgress {waiting : CellId} (hne : c ≠ waiting) (h : s.Awaits r a waiting) :
    (s.setProgress c p).Awaits r a waiting := by
  have hcell := setProgress_cell_of_ne hne s p
  obtain ⟨e, fields, path, htask, he, hsees⟩ := h.task
  refine ⟨by simpa using h.inside, ?_, ?_⟩
  · exact ⟨e, fields, path, by rw [hcell, htask], he, hsees.setProgress p⟩
  · rw [hcell]
    exact h.progress.imp_right (·.setProgress hunfinished)

theorem Wired.setProgress {x : Node} (h : s.Wired r a n x) :
    (s.setProgress c p).Wired r a n x := by
  obtain ⟨ids, hx, hinputs⟩ := h
  exact ⟨ids, hx, hinputs.imp fun _ _ hi => hi.setProgress hunfinished⟩

theorem Made.setProgress (hne : ∀ b waiting, s.Awaits r b waiting → c ≠ waiting)
    (h : s.Made r a n k) : (s.setProgress c p).Made r a n k where
  inside := h.inside
  node := by
    refine h.node.imp (·.setProgress hunfinished) ?_
    rintro ⟨input, deltaT, waiting, hn, hnode, hawaits⟩
    exact ⟨input, deltaT, waiting, hn, hnode, hawaits.setProgress hunfinished (hne _ _ hawaits)⟩
  before b hb := by
    obtain ⟨i, hi, hmember⟩ := h.before b hb
    exact ⟨i, hi, hmember.setProgress hunfinished⟩

end Progress

end Store

namespace Design

/-- The members of the record `r` are those of the design, and those in `active` are computed at
    the moment. -/
structure Underway (d : Design) (r : RecordId) (active : List String) (s : Store) : Prop where
  inside : r < s.records.size
  member : ∀ a n, (a, n) ∈ d.nodes → ∃ m e, (s.record r).find? a = some m ∧
    m.cell < s.cells.size ∧ (s.cell m.cell).task = .evaluate e r a ∧ n.WrittenAs e
  running : ∀ a ∈ d.names, ∀ m, (s.record r).find? a = some m →
    ((s.cell m.cell).progress = .running ↔ a ∈ active)
  made : ∀ a n, (a, n) ∈ d.nodes → ∀ m v, (s.record r).find? a = some m →
    (s.cell m.cell).progress = .finished v →
      ∃ k, v.payload = .object (.node k) ∧ s.Made r a n k

namespace Underway

variable {d : Design} {r : RecordId} {active : List String} {s t : Store} {a : String}
  {n : NodeDesign} {m : Member} {c : CellId}

theorem memberOf (h : d.Underway r active s) (ha : a ∈ d.names) :
    ∃ m n e, (a, n) ∈ d.nodes ∧ (s.record r).find? a = some m ∧ m.cell < s.cells.size ∧
      (s.cell m.cell).task = .evaluate e r a ∧ n.WrittenAs e := by
  obtain ⟨⟨a, n⟩, hmem, rfl⟩ := List.mem_map.1 ha
  obtain ⟨m, e, hm⟩ := h.member a n hmem
  exact ⟨m, n, e, hmem, hm⟩

/-- The nodes of members are there. -/
theorem node_lt (h : d.Underway r active s) (ha : a ∈ d.names) {k : NodeId}
    (hk : s.MemberIs r a k) : k < s.nodes.size := by
  obtain ⟨⟨a, n⟩, hmem, rfl⟩ := List.mem_map.1 ha
  obtain ⟨m, v, hm, -, hv, hpayload⟩ := hk
  obtain ⟨k', hk', hmade⟩ := h.made a n hmem m v hm hv
  rw [hpayload] at hk'
  cases hk'
  exact hmade.inside

/-- Members are computed in cells of their own. -/
theorem name_eq (h : d.Underway r active s) {b : String} {m' : Member} (ha : a ∈ d.names)
    (hb : b ∈ d.names) (hm : (s.record r).find? a = some m)
    (hm' : (s.record r).find? b = some m') (hcell : m.cell = m'.cell) : a = b := by
  obtain ⟨_, _, _, -, hfound, -, htask, -⟩ := h.memberOf ha
  obtain ⟨_, _, _, -, hfound', -, htask', -⟩ := h.memberOf hb
  cases hm.symm.trans hfound
  cases hm'.symm.trans hfound'
  rw [hcell, htask'] at htask
  cases htask
  rfl

/-- Nothing happens to the members while other things are made. -/
theorem later (h : d.Underway r active s) (hst : s.Later (fun _ => False) t) :
    d.Underway r active t := by
  have hcell (c) (hc : c < s.cells.size) : t.cell c = s.cell c := hst.unchanged hc id
  have hrecord := hst.record r h.inside
  have hmember : s.Later (Task.In r) t := hst.weaken
  have hlt {a m} (ha : a ∈ d.names) (hm : (t.record r).find? a = some m) :
      m.cell < s.cells.size := by
    obtain ⟨_, _, _, -, hfound, hlt, -⟩ := h.memberOf ha
    rw [hrecord] at hm
    cases hm.symm.trans hfound
    exact hlt
  refine ⟨Nat.lt_of_lt_of_le h.inside hst.records, ?_, ?_, ?_⟩
  · intro a n ha
    obtain ⟨m, e, hm, hlt, htask, he⟩ := h.member a n ha
    refine ⟨m, e, by rwa [hrecord], Nat.lt_of_lt_of_le hlt hst.cells, ?_, he⟩
    rw [hcell _ hlt, htask]
  · intro a ha m hm
    rw [hcell _ (hlt ha hm)]
    exact h.running a ha m (hrecord ▸ hm)
  · intro a n ha m v hm hv
    rw [hcell _ (hlt (List.mem_map_of_mem ha) hm)] at hv
    obtain ⟨k, hk, hmade⟩ := h.made a n ha m v (hrecord ▸ hm) hv
    exact ⟨k, hk, hmade.later hmember h.inside⟩

section Progress

variable {p : Progress}

/-- A cell that is not finished may go on, if what is known of members stays right. -/
theorem setProgress {active' : List String} (h : d.Underway r active s)
    (hunfinished : ∀ v, (s.cell c).progress ≠ .finished v)
    (hfree : ∀ b waiting, s.Awaits r b waiting → c ≠ waiting)
    (hrunning : ∀ a ∈ d.names, ∀ m, (s.record r).find? a = some m →
      (((s.setProgress c p).cell m.cell).progress = .running ↔ a ∈ active'))
    (hmade : ∀ a n, (a, n) ∈ d.nodes → ∀ m v, (s.record r).find? a = some m → c = m.cell →
      p = .finished v → ∃ k, v.payload = .object (.node k) ∧ s.Made r a n k) :
    d.Underway r active' (s.setProgress c p) where
  inside := h.inside
  member a n ha := by
    obtain ⟨m, e, hm, hlt, htask, he⟩ := h.member a n ha
    refine ⟨m, e, hm, by simpa using hlt, ?_, he⟩
    rw [Store.setProgress_cell]
    split <;> exact htask
  running := hrunning
  made a n ha m v hm hv := by
    have hlt : m.cell < s.cells.size := by
      obtain ⟨_, _, hfound, hlt, -⟩ := h.member a n ha
      cases hm.symm.trans hfound
      exact hlt
    have hkept : ∃ k, v.payload = .object (.node k) ∧ s.Made r a n k := by
      rw [Store.setProgress_cell] at hv
      by_cases hc : c = m.cell
      · rw [if_pos ⟨hc, hlt⟩] at hv
        exact hmade a n ha m v hm hc hv
      · rw [if_neg (not_and_of_not_left _ hc)] at hv
        exact h.made a n ha m v hm hv
    obtain ⟨k, hk, hmadeNode⟩ := hkept
    exact ⟨k, hk, hmadeNode.setProgress hunfinished hfree⟩

/-- Cells of members are not what delays wait for. -/
theorem not_awaits (h : d.Underway r active s) (ha : a ∈ d.names)
    (hm : (s.record r).find? a = some m) {b : String} {waiting : CellId}
    (hawaits : s.Awaits r b waiting) : m.cell ≠ waiting := by
  rintro rfl
  obtain ⟨_, _, e, -, hfound, -, htask, -⟩ := h.memberOf ha
  cases hm.symm.trans hfound
  exact hawaits.not_in ⟨e, a, htask⟩

/-- When the cell of a member goes on, the other members are running iff they were. -/
theorem running_setProgress (h : d.Underway r active s) (ha : a ∈ d.names)
    (hm : (s.record r).find? a = some m) (p : Progress) {b : String} {m' : Member}
    (hb : b ∈ d.names) (hm' : (s.record r).find? b = some m') :
    ((s.setProgress m.cell p).cell m'.cell).progress = .running ↔
      if b = a then p = .running else b ∈ active := by
  by_cases heq : b = a
  · subst heq
    obtain ⟨_, _, _, -, hfound, hlt, -⟩ := h.memberOf hb
    cases hm.symm.trans hm'
    cases hm.symm.trans hfound
    rw [Store.setProgress_cell_self hlt, if_pos rfl]
  · have hcell : m.cell ≠ m'.cell := fun hsame => heq (h.name_eq ha hb hm hm' hsame).symm
    rw [Store.setProgress_cell_of_ne hcell, if_neg heq]
    exact h.running b hb m' hm'

/-- Computing a member begins. -/
theorem start (h : d.Underway r active s) (ha : a ∈ d.names)
    (hm : (s.record r).find? a = some m) (hpending : (s.cell m.cell).progress = .pending) :
    d.Underway r (a :: active) (s.setProgress m.cell .running) := by
  refine h.setProgress (by simp [hpending]) (fun b w hw => h.not_awaits ha hm hw) ?_ ?_
  · intro b hb m' hm'
    rw [h.running_setProgress ha hm _ hb hm', List.mem_cons]
    by_cases heq : b = a <;> simp [heq]
  · rintro _ _ _ _ _ _ _ ⟨⟩

/-- Computing a member ends with its node. -/
theorem finish {v : Value} {k : NodeId} (h : d.Underway r (a :: active) s)
    (ha : (a, n) ∈ d.nodes) (hm : (s.record r).find? a = some m) (hactive : a ∉ active)
    (hk : v.payload = .object (.node k)) (hmade : s.Made r a n k) :
    d.Underway r active (s.setProgress m.cell (.finished v)) := by
  have hname : a ∈ d.names := List.mem_map_of_mem ha
  have hrunning : (s.cell m.cell).progress = .running :=
    (h.running a hname m hm).2 List.mem_cons_self
  refine h.setProgress (by simp [hrunning]) (fun b w hw => h.not_awaits hname hm hw) ?_ ?_
  · intro b hb m' hm'
    rw [h.running_setProgress hname hm _ hb hm', List.mem_cons]
    by_cases heq : b = a <;> simp [heq, hactive]
  · rintro b n' hb m' w hm' hcell ⟨⟩
    obtain rfl := h.name_eq hname (List.mem_map_of_mem hb) hm hm' hcell
    obtain rfl := d.eq_of_name hb ha
    exact ⟨k, hk, hmade⟩

/-- Computing something else goes on. -/
theorem other (h : d.Underway r active s) (hrunning : (s.cell c).progress = .running)
    (htask : ¬Task.In r (s.cell c).task) (p : Progress) :
    d.Underway r active (s.setProgress c p) := by
  have hne {b m'} (hb : b ∈ d.names) (hm' : (s.record r).find? b = some m') : c ≠ m'.cell := by
    rintro rfl
    obtain ⟨_, _, e, -, hfound, -, hin, -⟩ := h.memberOf hb
    cases hm'.symm.trans hfound
    exact htask ⟨e, b, hin⟩
  refine h.setProgress (by simp [hrunning]) ?_ ?_ ?_
  · rintro b w hw rfl
    rcases hw.progress with hpending | ⟨-, v, k, hv, -⟩
    · simp [hrunning] at hpending
    · simp [hrunning] at hv
  · intro b hb m' hm'
    rw [Store.setProgress_cell_of_ne (hne hb hm')]
    exact h.running b hb m' hm'
  · intro b n' hb m' w hm' hcell
    exact absurd hcell (hne (List.mem_map_of_mem hb) hm')

end Progress

end Underway

end Design

end NetDesc
