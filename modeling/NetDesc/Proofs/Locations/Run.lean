import NetDesc.Proofs.Locations.Erasure
import NetDesc.Proofs.Variation.Run

namespace NetDesc

/-- Nothing is idle. -/
theorem Variation.erasure_quiet (events : List Event) : Variation.erasure.Quiet events :=
  fun _ _ _ hidle => hidle.elim

namespace Outcome

variable {α β : Type}

/-- The second run ends like the first one, without locations: its calls are answered with what
    remains of the answers, and it leaves what remains of the store. -/
def Erases (f : α → β) : Outcome α → Outcome β → Prop
  | value result s, o => o = value (f result) s.unlocated
  | error e s, o => ∃ e' : EvalError, e.cause = e'.cause ∧ o = error e' s.unlocated
  | exhausted, o => o = exhausted

/-- What varies with a run without locations erases to it. -/
theorem Varies.erases {f : α → β} {Q : α → β → Prop} {o : Outcome α} {o' : Outcome β}
    (h : o.Varies .erasure Q o') (hQ : ∀ {a b}, Q a b → b = f a) : o.Erases f o' := by
  cases h with
  | value h hst => rw [hQ h, Store.varies_erasure_iff.1 hst]; rfl
  | error h hst => exact ⟨_, h, by rw [Store.varies_erasure_iff.1 hst]⟩
  | exhausted => rfl

end Outcome

namespace Evaluator

variable {ev : Evaluator}

theorem evaluateMember_erases (hev : ev.registry.Placeless) (fuel : Nat) (root : Expr)
    (name : String) (s : Store) :
    (ev.evaluateMember fuel root name s).Erases Value.unlocated
      (ev.evaluateMember fuel root.unlocated name s.unlocated) := by
  have hroot : Variation.erasure.expr root root.unlocated := rfl
  have hstore : s.Varies .erasure s.unlocated := Store.varies_erasure_iff.2 rfl
  have hvaries := evaluateMember_varies (hev .erasure) hroot fuel name hstore
    (Variation.erasure_quiet _)
  exact hvaries.erases Value.varies_erasure_iff.1

theorem formatValue_erases (hev : ev.registry.Placeless) (fuel : Nat) (v : Value) (how : String)
    (s : Store) :
    (ev.formatValue fuel v how s).Erases id
      (ev.formatValue fuel v.unlocated how s.unlocated) := by
  have hvalue : v.Varies .erasure v.unlocated := Value.varies_erasure_iff.2 rfl
  have hstore : s.Varies .erasure s.unlocated := Store.varies_erasure_iff.2 rfl
  have hvaries := run_varies (hev .erasure)
    (.check_eq (FormatSpec.parse_varies how hvalue.location) fun spec =>
      Program.render_varies spec hvalue) fuel hstore (Variation.erasure_quiet _)
  exact hvaries.erases Eq.symm

end Evaluator

/-- Values of the same type and path with the same payload. Functions may have bodies that differ
    in locations. -/
structure Value.Congruent (v w : Value) : Prop where
  typeName : v.typeName = w.typeName
  path : v.path = w.path
  payload : v.payload.unlocated = w.payload.unlocated

/-- Stores that differ in locations only. Objects have none but for where a network stands, so
    nodes are the same with all their settings and inputs, and so is what was printed. -/
structure Store.Congruent (s t : Store) : Prop where
  cells : s.cells.map Cell.unlocated = t.cells.map Cell.unlocated
  records : s.records.map Record.unlocated = t.records.map Record.unlocated
  nodes : s.nodes = t.nodes
  networks : s.networks.map Network.unlocated = t.networks.map Network.unlocated
  actions : s.actions = t.actions
  printed : s.printed = t.printed

/-- The runs end the same way: with results that are the same, or with errors of the same kind and
    message, and in stores that differ in locations only. -/
def Outcome.Congruent {α : Type} (same : α → α → Prop) : Outcome α → Outcome α → Prop
  | value a s, value b t => same a b ∧ s.Congruent t
  | error e s, error f t => e.cause = f.cause ∧ e.message = f.message ∧ s.Congruent t
  | exhausted, exhausted => True
  | _, _ => False

theorem Store.congruent_iff {s t : Store} : s.Congruent t ↔ s.unlocated = t.unlocated := by
  obtain ⟨cells, records, nodes, networks, actions, printed⟩ := s
  obtain ⟨cells', records', nodes', networks', actions', printed'⟩ := t
  simp only [unlocated, mk.injEq]
  constructor
  · rintro ⟨hcells, hrecords, hnodes, hnetworks, hactions, hprinted⟩
    exact ⟨hcells, hrecords, hnodes, hnetworks, hactions, hprinted⟩
  · rintro ⟨hcells, hrecords, hnodes, hnetworks, hactions, hprinted⟩
    exact ⟨hcells, hrecords, hnodes, hnetworks, hactions, hprinted⟩

theorem Value.congruent_of_unlocated {v w : Value} (h : v.unlocated = w.unlocated) :
    v.Congruent w where
  typeName := by rw [← v.unlocated_typeName, h, unlocated_typeName]
  path := congrArg (·.path) h
  payload := congrArg (·.payload) h

/-- Runs that erase to the same run end the same way. -/
theorem Outcome.congruent_of_erases {α β : Type} {f : α → β} {same : α → α → Prop}
    (hsame : ∀ a b, f a = f b → same a b) {o o' : Outcome α} {r : Outcome β}
    (h : o.Erases f r) (h' : o'.Erases f r) : o.Congruent same o' := by
  cases o with
  | value a s =>
    subst h
    cases o' with
    | value b t =>
      obtain ⟨hab, hst⟩ := value.inj h'
      exact ⟨hsame a b hab, Store.congruent_iff.2 hst⟩
    | error e t =>
      obtain ⟨e', -, heq⟩ := h'
      cases heq
    | exhausted => cases h'
  | error e s =>
    obtain ⟨e', hcause, rfl⟩ := h
    cases o' with
    | value b t => cases h'
    | error f t =>
      obtain ⟨f', hcause', heq⟩ := h'
      obtain ⟨rfl, hst⟩ := error.inj heq
      have hcauses := hcause.trans hcause'.symm
      exact ⟨hcauses, congrArg Cause.message hcauses, Store.congruent_iff.2 hst⟩
    | exhausted => cases h'
  | exhausted =>
    subst h
    cases o' with
    | value b t => cases h'
    | error e t =>
      obtain ⟨e', -, heq⟩ := h'
      cases heq
    | exhausted => trivial

namespace Evaluator

/-- Trees that differ in locations only have members that differ in locations only, and these have
    the same text in every format. -/
theorem evaluateMember_location_independent {ev : Evaluator} (hev : ev.registry = .standard)
    {root root' : Expr} (hroot : root.unlocated = root'.unlocated) (name : String) (fuel : Nat) :
    (ev.evaluateMember fuel root name {}).Congruent Value.Congruent
        (ev.evaluateMember fuel root' name {}) ∧
      ∀ v s w t, ev.evaluateMember fuel root name {} = .value v s →
        ev.evaluateMember fuel root' name {} = .value w t →
          ∀ how fuel',
          (ev.formatValue fuel' v how s).Congruent Eq (ev.formatValue fuel' w how t) := by
  have hplaceless : ev.registry.Placeless := hev ▸ Registry.standard_placeless
  have hmember := evaluateMember_erases hplaceless fuel root name {}
  have hmember' := evaluateMember_erases hplaceless fuel root' name {}
  rw [← hroot] at hmember'
  refine
    ⟨Outcome.congruent_of_erases (fun _ _ => Value.congruent_of_unlocated) hmember hmember', ?_⟩
  intro v s w t hv hw how fuel'
  rw [hv] at hmember
  rw [hw] at hmember'
  obtain ⟨hvw, hst⟩ := Outcome.value.inj (hmember.symm.trans hmember')
  have htext := formatValue_erases hplaceless fuel' v how s
  have htext' := formatValue_erases hplaceless fuel' w how t
  rw [← hvw, ← hst] at htext'
  exact Outcome.congruent_of_erases (fun _ _ => id) htext htext'

/-- A tree with a member, all at one location. -/
def greetingAt (location : Location) : Expr :=
  .mk (.record [.mk { name := "x", location } (.mk (.text "hi") location)]) location

/-- The same greeting is read at two places. -/
theorem evaluateMember_location_independent_greeting :
    (greetingAt (.ofLine 2 3)).unlocated = (greetingAt .unknown).unlocated ∧
      (({} : Evaluator).evaluateMember 10 (greetingAt (.ofLine 2 3)) "x" {}).Congruent
        Value.Congruent (({} : Evaluator).evaluateMember 10 (greetingAt .unknown) "x" {}) := by
  have hroot : (greetingAt (.ofLine 2 3)).unlocated = (greetingAt .unknown).unlocated := rfl
  exact ⟨hroot, (evaluateMember_location_independent rfl hroot "x" 10).1⟩

end Evaluator

end NetDesc
