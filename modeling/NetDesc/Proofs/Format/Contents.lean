import Mathlib.Logic.Relation
import NetDesc.Proofs.Store.WellFormed
import NetDesc.Render

namespace NetDesc

open Relation (ReflTransGen)

namespace Value

/-- Nodes, and networks of them, may look different later. -/
def IsGraph (v : Value) : Prop :=
  (∃ id, v.payload = .object (.node id)) ∨ ∃ id, v.payload = .object (.network id)

end Value

namespace Store

/-- The cells of the members of a record, or of the elements of an array. -/
def parts (s : Store) (v : Value) : List CellId :=
  match v.payload with
  | .record id => (s.record id).members.toList.map (·.2.cell)
  | .array a => a.cells.toList
  | _ => []

/-- A member or an element of `v` has been computed and is `u`. -/
def HasPart (s : Store) (v u : Value) : Prop :=
  ∃ c ∈ s.parts v, (s.cell c).progress = .finished u

/-- Everything inside of a value has been computed, and it is nested less than `n` deep. -/
def Resolved (s : Store) : (n : Nat) → Value → Prop
  | 0, _ => False
  | n + 1, v => ∀ c ∈ s.parts v, ∃ u, (s.cell c).progress = .finished u ∧ s.Resolved n u

/-- The text of what a cell holds, if it holds anything yet. -/
def heldText (s : Store) (text : Value → String) (c : CellId) : String :=
  match (s.cell c).progress with
  | .finished v => text v
  | _ => ""

/-- The text of a value of which everything has been computed, and is nested less than `n` deep.
    It is read off the store, and stays as it is while the store grows, except that nodes may
    still be named and tied together. -/
def textOf (s : Store) (spec : FormatSpec) : (n : Nat) → Value → String
  | 0, _ => ""
  | n + 1, v =>
    match v.payload with
    | .number x => spec.formatNumber x
    | .text t => spec.formatText t
    | .truth b => spec.formatTruth b
    | .record id =>
      let texts := (s.record id).members.toList.map fun (name, m) =>
        s!"{name} = {s.heldText (s.textOf spec n) m.cell}"
      Layout.nest (Render.lines texts) '[' true ']'
    | .array a =>
      let texts := a.cells.toList.map (s.heldText (s.textOf spec n))
      Layout.nest (Render.lines texts) '(' false ')'
    | .function f => s!"<function {f.name}>"
    | .object o => s.describe o

variable {s t : Store} {v u : Value} {n : Nat}

theorem parts_record {id : RecordId} (hv : v.payload = .record id) :
    s.parts v = (s.record id).members.toList.map (·.2.cell) := by
  rw [parts, hv]

theorem parts_array {a : LazyArray} (hv : v.payload = .array a) : s.parts v = a.cells.toList := by
  rw [parts, hv]

theorem heldText_finished {c : CellId} (hc : (s.cell c).progress = .finished v)
    (text : Value → String) : s.heldText text c = text v := by
  rw [heldText, hc]

theorem WellFormed.parts_lt {base : Nat} (hs : s.WellFormed base) (hv : v.Valid s) :
    ∀ c ∈ s.parts v, c < s.cells.size := by
  intro c hc
  unfold parts at hc
  split at hc
  · next id hid =>
    obtain ⟨p, hp, rfl⟩ := List.mem_map.1 hc
    exact (hs.record_valid id).members p (Array.mem_toList_iff.1 hp)
  · next a ha =>
    have hcells : ∀ c ∈ a.cells, c < s.cells.size := by
      simpa [Value.Valid, ha, Payload.Valid] using hv
    exact hcells c (Array.mem_toList_iff.1 hc)
  · cases hc

theorem HasPart.valid {base : Nat} (h : s.HasPart v u) (hs : s.WellFormed base) (hv : v.Valid s) :
    u.Valid s := by
  obtain ⟨c, hc, hu⟩ := h
  exact (hs.cell c (hs.parts_lt hv c hc)).value u hu

theorem valid_of_inside {base : Nat} (hs : s.WellFormed base) (hv : v.Valid s)
    (h : ReflTransGen s.HasPart v u) : u.Valid s := by
  induction h with
  | refl => exact hv
  | tail _ hpart ih => exact hpart.valid hs ih

/-- Everything inside of a resolved value has been computed. -/
theorem Resolved.finished (h : s.Resolved n v) (hu : ReflTransGen s.HasPart v u) :
    ∀ c ∈ s.parts u, (s.cell c).isFinished := by
  induction hu using ReflTransGen.head_induction_on generalizing n with
  | refl =>
    intro c hc
    cases n with
    | zero => exact h.elim
    | succ n =>
      obtain ⟨w, hw, -⟩ := h c hc
      rw [Cell.isFinished, hw]
  | head hpart _ ih =>
    cases n with
    | zero => exact h.elim
    | succ n =>
      obtain ⟨c, hc, hw⟩ := hpart
      obtain ⟨w, hw', hresolved⟩ := h c hc
      rw [hw] at hw'
      cases hw'
      exact ih hresolved

section Extends

variable (hst : s.Extends s.records.size t)

include hst

/-- A cell that has been computed does not change any more. -/
theorem Extends.cell_eq {c : CellId} (hc : c < s.cells.size) (h : (s.cell c).isFinished) :
    t.cell c = s.cell c := by
  have hprogress : (t.cell c).progress = (s.cell c).progress := by
    cases hv : (s.cell c).progress with
    | finished v => exact hst.finished c hc v hv
    | _ => simp [Cell.isFinished, hv] at h
  calc
    t.cell c = ⟨(t.cell c).task, (t.cell c).progress, (t.cell c).location, (t.cell c).path⟩ := rfl
    _ = s.cell c := by rw [hst.task c hc, hprogress, hst.location c hc, hst.path c hc]

/-- Records are complete once they can be referred to. -/
theorem Extends.parts_eq (hv : v.Valid s) : t.parts v = s.parts v := by
  unfold parts
  split
  · next id hid =>
    have hlt : id < s.records.size := by simpa [Value.Valid, hid, Payload.Valid] using hv
    rw [hst.record id hlt]
  · rfl
  · rfl

variable (hs : s.WellFormed s.records.size)

include hs

theorem HasPart.later (h : s.HasPart v u) (hv : v.Valid s) : t.HasPart v u := by
  obtain ⟨c, hc, hu⟩ := h
  refine ⟨c, ?_, hst.finished c (hs.parts_lt hv c hc) u hu⟩
  rwa [hst.parts_eq hv]

theorem inside_later (h : ReflTransGen s.HasPart v u) (hv : v.Valid s) :
    ReflTransGen t.HasPart v u := by
  induction h with
  | refl => exact .refl
  | tail hinside hpart ih => exact ih.tail (hpart.later hst hs (valid_of_inside hs hv hinside))

theorem Resolved.later (h : s.Resolved n v) (hv : v.Valid s) : t.Resolved n v := by
  induction n generalizing v with
  | zero => exact h.elim
  | succ n ih =>
    intro c hc
    rw [hst.parts_eq hv] at hc
    obtain ⟨u, hu, hresolved⟩ := h c hc
    have hpart : s.HasPart v u := ⟨c, hc, hu⟩
    exact ⟨u, hst.finished c (hs.parts_lt hv c hc) u hu, ih hresolved (hpart.valid hs hv)⟩

/-- Only nodes and networks may change what a resolved value looks like. -/
theorem Resolved.textOf_later (h : s.Resolved n v) (hv : v.Valid s)
    (hplain : ∀ u, ReflTransGen s.HasPart v u → ¬u.IsGraph) (spec : FormatSpec) :
    t.textOf spec n v = s.textOf spec n v := by
  induction n generalizing v with
  | zero => exact h.elim
  | succ n ih =>
    have hheld : ∀ c ∈ s.parts v,
        t.heldText (t.textOf spec n) c = s.heldText (s.textOf spec n) c := by
      intro c hc
      obtain ⟨u, hu, hresolved⟩ := h c hc
      have hpart : s.HasPart v u := ⟨c, hc, hu⟩
      rw [heldText_finished (hst.finished c (hs.parts_lt hv c hc) u hu), heldText_finished hu]
      exact ih hresolved (hpart.valid hs hv) fun w hw => hplain w (.head hpart hw)
    unfold textOf
    split
    · rfl
    · rfl
    · rfl
    · next id hid =>
      have hlt : id < s.records.size := by simpa [Value.Valid, hid, Payload.Valid] using hv
      rw [hst.record id hlt]
      have hlines : ∀ p ∈ (s.record id).members.toList,
          s!"{p.1} = {t.heldText (t.textOf spec n) p.2.cell}" =
            s!"{p.1} = {s.heldText (s.textOf spec n) p.2.cell}" := by
        intro p hp
        rw [hheld p.2.cell (by rw [parts_record hid]; exact List.mem_map_of_mem hp)]
      rw [List.map_congr_left hlines]
    · next a ha =>
      rw [parts_array ha] at hheld
      rw [List.map_congr_left hheld]
    · rfl
    · next o ho =>
      cases o with
      | node id => exact absurd (.inl ⟨id, ho⟩) (hplain v .refl)
      | network id => exact absurd (.inr ⟨id, ho⟩) (hplain v .refl)
      | action id => rfl

end Extends

end Store

end NetDesc
