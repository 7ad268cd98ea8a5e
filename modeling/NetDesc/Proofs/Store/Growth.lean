import NetDesc.Proofs.Store.Valid

namespace NetDesc

/-- A node at a later time. -/
structure Node.Extends (n m : Node) : Prop where
  operation : m.operation = n.operation
  tag : m.tag = n.tag
  settings : m.settings = n.settings
  name : n.name ≠ "" → m.name = n.name
  tied : n.pendingInput = none → m.pendingInput = none ∧ m.inputs = n.inputs

theorem Node.Extends.refl (n : Node) : n.Extends n :=
  ⟨rfl, rfl, rfl, fun _ => rfl, fun h => ⟨h, rfl⟩⟩

theorem Node.Extends.trans {n m k : Node} (hnm : n.Extends m) (hmk : m.Extends k) :
    n.Extends k where
  operation := hmk.operation.trans hnm.operation
  tag := hmk.tag.trans hnm.tag
  settings := hmk.settings.trans hnm.settings
  name h := by
    have hm := hnm.name h
    rw [hmk.name (by rwa [hm]), hm]
  tied h := by
    obtain ⟨hm, hinputs⟩ := hnm.tied h
    obtain ⟨hk, hinputs'⟩ := hmk.tied hm
    exact ⟨hk, hinputs'.trans hinputs⟩

namespace Store

/-- What stays true of a store for ever: computations of cells do not change and finished ones
    keep their value, names that were given and inputs that were tied stay, and networks never
    change. The first `base` records are sealed, and only later ones may still get members. -/
structure Extends (base : Nat) (s t : Store) : Prop where
  covers : s.Covers t
  task : ∀ c < s.cells.size, (t.cell c).task = (s.cell c).task
  location : ∀ c < s.cells.size, (t.cell c).location = (s.cell c).location
  path : ∀ c < s.cells.size, (t.cell c).path = (s.cell c).path
  finished : ∀ c < s.cells.size, ∀ v, (s.cell c).progress = .finished v →
    (t.cell c).progress = .finished v
  record : ∀ r < base, t.record r = s.record r
  node : ∀ n < s.nodes.size, (s.node n).Extends (t.node n)
  network : ∀ n < s.networks.size, t.network n = s.network n

/-- What a computation leaves behind. Whatever was being computed still is, and nothing else; an
    input that waits for a cell that is being computed cannot have been tied. -/
structure Grows (base : Nat) (s t : Store) : Prop extends Extends base s t where
  running : ∀ c, (t.cell c).progress = .running ↔ (s.cell c).progress = .running
  waiting : ∀ n < s.nodes.size, ∀ c, (s.node n).pendingInput = some c →
    (s.cell c).progress = .running → (t.node n).pendingInput = some c

variable {base bound : Nat} {s t u : Store}

theorem Extends.refl (base : Nat) (s : Store) : s.Extends base s where
  covers := .refl s
  task _ _ := rfl
  location _ _ := rfl
  path _ _ := rfl
  finished _ _ _ h := h
  record _ _ := rfl
  node n _ := .refl (s.node n)
  network _ _ := rfl

theorem Extends.trans (hst : s.Extends base t) (htu : t.Extends bound u) (hbase : base ≤ bound) :
    s.Extends base u where
  covers := hst.covers.trans htu.covers
  task c hc := (htu.task c (Nat.lt_of_lt_of_le hc hst.covers.cells)).trans (hst.task c hc)
  location c hc :=
    (htu.location c (Nat.lt_of_lt_of_le hc hst.covers.cells)).trans (hst.location c hc)
  path c hc := (htu.path c (Nat.lt_of_lt_of_le hc hst.covers.cells)).trans (hst.path c hc)
  finished c hc v hv :=
    htu.finished c (Nat.lt_of_lt_of_le hc hst.covers.cells) v (hst.finished c hc v hv)
  record r hr := (htu.record r (Nat.lt_of_lt_of_le hr hbase)).trans (hst.record r hr)
  node n hn := (hst.node n hn).trans (htu.node n (Nat.lt_of_lt_of_le hn hst.covers.nodes))
  network n hn :=
    (htu.network n (Nat.lt_of_lt_of_le hn hst.covers.networks)).trans (hst.network n hn)

/-- Sealing fewer records asks for less. -/
theorem Extends.weaken (hst : s.Extends bound t) (hbase : base ≤ bound) : s.Extends base t :=
  { hst with record := fun r hr => hst.record r (Nat.lt_of_lt_of_le hr hbase) }

theorem Grows.refl (base : Nat) (s : Store) : s.Grows base s where
  toExtends := .refl base s
  running _ := Iff.rfl
  waiting _ _ _ h _ := h

theorem Grows.trans (hst : s.Grows base t) (htu : t.Grows bound u) (hbase : base ≤ bound) :
    s.Grows base u where
  toExtends := hst.toExtends.trans htu.toExtends hbase
  running c := (htu.running c).trans (hst.running c)
  waiting n hn c hc hrun :=
    htu.waiting n (Nat.lt_of_lt_of_le hn hst.covers.nodes) c (hst.waiting n hn c hc hrun)
      ((hst.running c).2 hrun)

theorem Grows.weaken (hst : s.Grows bound t) (hbase : base ≤ bound) : s.Grows base t :=
  { hst with toExtends := hst.toExtends.weaken hbase }

theorem setProgress_covers (s : Store) (c : CellId) (p : Progress) :
    s.Covers (s.setProgress c p) := by
  constructor <;> simp [setProgress]

/-- Changing how far an unfinished cell has come loses nothing. -/
theorem setProgress_extends (s : Store) (base : Nat) (c : CellId) (p : Progress)
    (hc : ∀ v, (s.cell c).progress ≠ .finished v) : s.Extends base (s.setProgress c p) where
  covers := s.setProgress_covers c p
  task id _ := by simp only [setProgress_cell]; split <;> rfl
  location id _ := by simp only [setProgress_cell]; split <;> rfl
  path id _ := by simp only [setProgress_cell]; split <;> rfl
  finished id _ v hv := by
    have hne : c ≠ id := fun heq => hc v (heq ▸ hv)
    simpa [setProgress_cell, hne] using hv
  record _ _ := rfl
  node n _ := .refl (s.node n)
  network _ _ := rfl

/-- Nothing is lost when the computation of a cell begins. -/
theorem start_extends (base : Nat) {c : CellId} (hpending : (s.cell c).progress = .pending) :
    s.Extends base (s.setProgress c .running) :=
  s.setProgress_extends base c .running (by simp [hpending])

/-- Nothing is lost when the computation of a cell is over. -/
theorem settle_extends (base : Nat) {c : CellId} (hrunning : (s.cell c).progress = .running)
    (p : Progress) : s.Extends base (s.setProgress c p) :=
  s.setProgress_extends base c p (by simp [hrunning])

theorem setProgress_running_iff {c id : CellId} :
    ((s.setProgress c .running).cell id).progress = .running ↔
      (c = id ∧ id < s.cells.size) ∨ (s.cell id).progress = .running := by
  rw [setProgress_cell]
  split
  · next h => simp [h]
  · next h =>
    constructor
    · exact .inr
    · rintro (hid | hrun)
      · exact absurd hid h
      · exact hrun

/-- While a cell is computed it stays running. -/
theorem Grows.running_start {c : CellId} (hc : c < s.cells.size)
    (hgrows : (s.setProgress c .running).Grows base t) : (t.cell c).progress = .running :=
  (hgrows.running c).2 (setProgress_running_iff.2 (.inl ⟨rfl, hc⟩))

/-- A computation that a cell ran between being set running and being settled is, from outside, a
    computation as any other. -/
theorem Grows.settle {c : CellId} {p : Progress} (hpending : (s.cell c).progress = .pending)
    (hgrows : (s.setProgress c .running).Grows base t) (hp : p ≠ .running) :
    s.Grows base (t.setProgress c p) := by
  have hinside : c < s.cells.size := by
    rcases Nat.lt_or_ge c s.cells.size with h | h
    · exact h
    · rw [cell_of_size_le h] at hpending
      cases hpending
  have hrunning : (t.cell c).progress = .running := hgrows.running_start hinside
  have hstart := s.start_extends base hpending
  have hstop := t.settle_extends base hrunning p
  have hall := (hstart.trans hgrows.toExtends (Nat.le_refl base)).trans hstop (Nat.le_refl base)
  refine { toExtends := hall, running := ?_, waiting := ?_ }
  · intro id
    have hid := hgrows.running id
    rw [setProgress_running_iff] at hid
    rw [setProgress_cell]
    split
    · next h =>
      obtain ⟨rfl, -⟩ := h
      simp [hp, hpending]
    · next h =>
      rw [hid]
      have hlt : c < t.cells.size := by simpa using Nat.lt_of_lt_of_le hinside hall.covers.cells
      constructor
      · rintro (⟨rfl, -⟩ | hrun)
        · exact absurd ⟨rfl, hlt⟩ h
        · exact hrun
      · exact .inr
  · intro n hn k hk hrun
    exact hgrows.waiting n hn k hk (setProgress_running_iff.2 (.inr hrun))

end Store

end NetDesc
