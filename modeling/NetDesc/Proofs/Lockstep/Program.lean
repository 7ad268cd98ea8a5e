import NetDesc.Program
import NetDesc.Proofs.Lockstep.Pairing

namespace NetDesc

/-- Programs raise errors of all causes but two. Cycles and expressions that are nested too deep are
    found by whoever runs a program. -/
def EvalError.IsRaised (e : EvalError) : Prop :=
  match e.cause with
  | .cyclicEvaluation _ => False
  | .recursionLimit _ => False
  | _ => True

namespace Access

/-- Steps that may be taken together. Only records that were made after the first `base` ones still
    get members. -/
def Paired (base : Nat) (p : Pairing) : Access → Access → Prop
  | readCell _, readCell _ => True
  | newCell c, newCell d => c.progress.Alike p d.progress
  | readRecord _, readRecord _ => True
  | find _ _, find _ _ => True
  | newRecord _, newRecord _ => True
  | addMember _ _ _, addMember k _ _ => base ≤ k
  | _, _ => False

/-- What corresponds after a step. -/
def pairing (a : Access) (p : Pairing) (s t : Store) : Pairing :=
  match a with
  | newCell _ => p.addCell s.cells.size t.cells.size
  | newRecord _ => p.addRecord s.records.size t.records.size
  | _ => p

theorem le_pairing (a : Access) (p : Pairing) (s t : Store) : p ≤ a.pairing p s t := by
  cases a with
  | newCell c => exact p.le_addCell _ _
  | newRecord parent => exact p.le_addRecord _ _
  | _ => exact p.le_refl

end Access

namespace Call

inductive Alike (p : Pairing) : Call → Call → Prop
  | perform {k l : Task} (h : k.Alike p l) : Alike p (.perform k) (.perform l)
  | force {c d : CellId} (h : p.cell c d) : Alike p (.force c) (.force d)

theorem Alike.mono {p q : Pairing} (hpq : p ≤ q) {c d : Call} (h : c.Alike p d) : c.Alike q d := by
  cases h with
  | perform h => exact .perform (h.mono hpq)
  | force h => exact .force (hpq.cell h)

/-- Answers that are alike. Only calls that are alike themselves have any. -/
def RepliesAlike (p : Pairing) : (c d : Call) → c.Reply → d.Reply → Prop
  | perform _, perform _ => fun v w => Value.Alike p v w
  | force _, force _ => fun v w => Value.Alike p v w
  | _, _ => fun _ _ => False

end Call

namespace Program

variable {α β γ δ : Type}

/-- Both programs take the same steps, as far as places that do not correspond allow to say so.
    New places are made at the same time on both sides and correspond from then on. Whatever
    calls answer, the programs go on like this if the answers are alike. `Q` has to hold when
    they are done. -/
def Lockstep (Q : Nat → Pairing → α → β → Prop) :
    Program α → Program β → Nat → Pairing → Store → Store → Prop
  | done a, done b, base, p, s, t => s.Alike p t ∧ base ≤ t.records.size ∧ Q base p a b
  | raise e, raise f, _, _, _, _ => e = f ∧ e.IsRaised
  | access a next, access b next', base, p, s, t =>
    a.Paired base p b ∧ (next (a.perform s).1).Lockstep Q (next' (b.perform t).1) base
      (a.pairing p s t) (a.perform s).2 (b.perform t).2
  | call c next, call d next', _, p, s, t =>
    s.Alike p t ∧ c.Alike p d ∧ ∀ (q : Pairing) (s' t' : Store) (v : c.Reply) (w : d.Reply),
      p ≤ q → s'.Alike q t' → c.RepliesAlike q d v w →
        (next v).Lockstep Q (next' w) t'.records.size q s' t'
  | _, _, _, _, _, _ => False

variable {Q : Nat → Pairing → α → β → Prop} {Q' : Nat → Pairing → γ → δ → Prop}

theorem Lockstep.bind {x : Program α} {y : Program β} {f : α → Program γ} {g : β → Program δ}
    {base : Nat} {p : Pairing} {s t : Store} (hxy : x.Lockstep Q y base p s t)
    (hfg : ∀ (b : Nat) (q : Pairing) (s' t' : Store) (a : α) (b' : β), s'.Alike q t' →
      b ≤ t'.records.size → Q b q a b' → (f a).Lockstep Q' (g b') b q s' t') :
    (x.bind f).Lockstep Q' (y.bind g) base p s t := by
  induction x generalizing y base p s t with
  | done a =>
    cases y with
    | done b => exact hfg _ _ _ _ _ _ hxy.1 hxy.2.1 hxy.2.2
    | _ => exact hxy.elim
  | raise e =>
    cases y with
    | raise f => exact hxy
    | _ => exact hxy.elim
  | access a next ih =>
    cases y with
    | access b next' => exact ⟨hxy.1, ih _ hxy.2⟩
    | _ => exact hxy.elim
  | call c next ih =>
    cases y with
    | call d next' =>
      refine ⟨hxy.1, hxy.2.1, fun q s' t' v w hpq hst hvw => ?_⟩
      exact ih v (hxy.2.2 q s' t' v w hpq hst hvw)
    | _ => exact hxy.elim

theorem Lockstep.imp {R : Nat → Pairing → α → β → Prop} {x : Program α} {y : Program β}
    {base : Nat} {p : Pairing} {s t : Store} (hxy : x.Lockstep Q y base p s t)
    (hQR : ∀ b q a a', Q b q a a' → R b q a a') : x.Lockstep R y base p s t := by
  have h : (x.bind done).Lockstep R (y.bind done) base p s t :=
    hxy.bind fun b q s' t' a a' hst hbase hQ => ⟨hst, hbase, hQR _ _ _ _ hQ⟩
  rwa [bind_done, bind_done] at h

/-- From all stores that are alike the programs are in lockstep, and `Q` says what is known of the
    results. Places that correspond keep doing so. -/
def Matches (Q : Nat → Pairing → α → β → Prop) (x : Program α) (y : Program β) (base : Nat)
    (p : Pairing) : Prop :=
  ∀ s t : Store, s.Alike p t → base ≤ t.records.size →
    x.Lockstep (fun b q a a' => p ≤ q ∧ Q b q a a') y base p s t

/-- The programs give values that are alike. -/
def GivesAlike (x y : Program Value) (base : Nat) (p : Pairing) : Prop :=
  x.Matches (fun _ q v w => v.Alike q w) y base p

/-- Checks that both pass, or fail with the same error. -/
inductive ChecksAlike (R : α → β → Prop) : Except EvalError α → Except EvalError β → Prop
  | ok {a : α} {b : β} (h : R a b) : ChecksAlike R (.ok a) (.ok b)
  | error {e : EvalError} (he : e.IsRaised) : ChecksAlike R (.error e) (.error e)

theorem ChecksAlike.bind {R : α → β → Prop} {S : γ → δ → Prop} {a : Except EvalError α}
    {b : Except EvalError β} {f : α → Except EvalError γ} {g : β → Except EvalError δ}
    (hab : ChecksAlike R a b) (hfg : ∀ v w, R v w → ChecksAlike S (f v) (g w)) :
    ChecksAlike S (a >>= f) (b >>= g) := by
  cases hab with
  | ok h => exact hfg _ _ h
  | error he => exact .error he

namespace Matches

variable {base : Nat} {p : Pairing} {x : Program α} {y : Program β} {f : α → Program γ}
  {g : β → Program δ}

theorem pure {a : α} {b : β} (h : Q base p a b) :
    (Pure.pure a : Program α).Matches Q (Pure.pure b) base p :=
  fun _ _ hst hbase => ⟨hst, hbase, p.le_refl, h⟩

theorem raise {e : EvalError} (he : e.IsRaised) :
    (Program.raise e : Program α).Matches Q (Program.raise e : Program β) base p :=
  fun _ _ _ _ => ⟨rfl, he⟩

theorem bind (hxy : x.Matches Q y base p)
    (hfg : ∀ (b : Nat) (q : Pairing) (a : α) (a' : β), p ≤ q → Q b q a a' →
      (f a).Matches Q' (g a') b q) :
    (x >>= f).Matches Q' (y >>= g) base p := by
  intro s t hst hbase
  refine (hxy s t hst hbase).bind ?_
  rintro b q s' t' a a' hst' hbase' ⟨hpq, hQ⟩
  refine ((hfg b q a a' hpq hQ) s' t' hst' hbase').imp ?_
  rintro b' q' c c' ⟨hqq, hQ'⟩
  exact ⟨Pairing.le_trans hpq hqq, hQ'⟩

theorem imp {R : Nat → Pairing → α → β → Prop} (hxy : x.Matches Q y base p)
    (hQR : ∀ b q a a', p ≤ q → Q b q a a' → R b q a a') : x.Matches R y base p := by
  intro s t hst hbase
  refine (hxy s t hst hbase).imp ?_
  rintro b q a a' ⟨hpq, hQ⟩
  exact ⟨hpq, hQR b q a a' hpq hQ⟩

theorem ofExcept {R : α → β → Prop} {a : Except EvalError α} {b : Except EvalError β}
    (hab : ChecksAlike R a b) :
    (Program.ofExcept a).Matches (fun b' q v w => b' = base ∧ q = p ∧ R v w) (Program.ofExcept b)
      base p := by
  cases hab with
  | ok h => exact pure ⟨rfl, rfl, h⟩
  | error he => exact raise he

/-- Checks come before what the programs do with what passes them. -/
theorem check {R : α → β → Prop} {a : Except EvalError α} {b : Except EvalError β}
    (hab : ChecksAlike R a b) (hfg : ∀ v w, R v w → (f v).Matches Q' (g w) base p) :
    (Program.ofExcept a >>= f).Matches Q' (Program.ofExcept b >>= g) base p := by
  refine (ofExcept hab).bind ?_
  rintro b q v w - ⟨rfl, rfl, hvw⟩
  exact hfg v w hvw

end Matches

section Steps

variable {base : Nat} {p : Pairing}

theorem readCell_matches {c d : CellId} (hcd : p.cell c d) :
    (readCell c).Matches (fun b q x y => b = base ∧ q = p ∧ x.Alike p y) (readCell d) base p :=
  fun _ _ hst hbase =>
    ⟨trivial, hst, hbase, p.le_refl, rfl, rfl, (hst.cell hcd).2.2⟩

theorem readRecord_matches {r k : RecordId} (hrk : p.record r k) :
    (readRecord r).Matches (fun b q x y => b = base ∧ q = p ∧ x.Alike p y) (readRecord k) base p :=
  fun _ _ hst hbase =>
    ⟨trivial, hst, hbase, p.le_refl, rfl, rfl, (hst.record hrk).2.2⟩

theorem find_matches {scope scope' : RecordId} (hscope : p.record scope scope') (name : String) :
    (find scope name).Matches (fun b q x y => b = base ∧ q = p ∧ Option.Rel (Member.Alike p) x y)
      (find scope' name) base p :=
  fun _ _ hst hbase =>
    ⟨trivial, hst, hbase, p.le_refl, rfl, rfl, hst.find? hscope name⟩

/-- New cells correspond; no records do that did not before. -/
theorem newCell_matches {c d : Cell} (hcd : c.Alike p d)
    (hprogress : c.progress.Alike p d.progress) :
    (newCell c).Matches (fun b q x y => b = base ∧ q.record = p.record ∧ q.cell x y) (newCell d)
      base p :=
  fun s t hst hbase => ⟨hprogress, hst.newCell hcd, hbase, p.le_addCell s.cells.size t.cells.size,
    rfl, rfl, .inr ⟨rfl, rfl⟩⟩

theorem newRecord_matches {parent parent' : Option RecordId}
    (hparent : Option.Rel p.record parent parent') :
    (newRecord parent).Matches (fun b q r k => b ≤ k ∧ q.record r k ∧ q.Sole r k)
      (newRecord parent') base p := by
  intro s t hst hbase
  have hrecord : Record.Alike p { enclosing := Access.enclosing s parent }
      { enclosing := Access.enclosing t parent' } := by
    refine ⟨.nil, ?_⟩
    cases hparent with
    | some h => exact .cons h (hst.record h).2.2.enclosing
    | none => exact .nil
  refine ⟨trivial, hst.newRecord hrecord, ?_, p.le_addRecord s.records.size t.records.size,
    hbase, .inr ⟨rfl, rfl⟩, hst.sole_addRecord⟩
  simp only [Access.perform, Array.size_push]
  omega

theorem addMember_matches {r k : RecordId} (hsole : p.Sole r k) (hopen : base ≤ k)
    (name : String) {m n : Member} (hm : m.Alike p n) :
    (addMember r name m).Matches (fun b q _ _ => b = base ∧ q = p) (addMember k name n) base p := by
  intro s t hst hbase
  refine ⟨hopen, hst.addMember hsole name hm, ?_, p.le_refl, rfl, rfl⟩
  simpa [Access.perform] using hbase

theorem call_matches {c d : Call} (hcd : c.Alike p d) :
    (Program.call c done).Matches (fun _ q v w => c.RepliesAlike q d v w) (Program.call d done)
      base p :=
  fun _ _ hst _ => ⟨hst, hcd, fun _ _ _ _ _ hpq hst' hvw =>
    ⟨hst', Nat.le_refl _, hpq, hvw⟩⟩

theorem force_givesAlike {c d : CellId} (hcd : p.cell c d) :
    (force c).GivesAlike (force d) base p :=
  call_matches (.force hcd)

theorem evaluate_givesAlike (e : Expr) {scope scope' : RecordId} (hscope : p.record scope scope')
    (path : String) : (evaluate e scope path).GivesAlike (evaluate e scope' path) base p :=
  call_matches (.perform (.evaluate e hscope path))

theorem evaluatePart_givesAlike (e : Expr) {scope scope' : RecordId}
    (hscope : p.record scope scope') (path id : String) :
    (evaluatePart e scope path id).GivesAlike (evaluatePart e scope' path id) base p :=
  evaluate_givesAlike e hscope (joinPath path id)

theorem suspend_matches (e : Expr) {scope scope' : RecordId} (hscope : p.record scope scope')
    (path : String) :
    (suspend e scope path).Matches (fun b q x y => b = base ∧ q.record = p.record ∧ q.cell x y)
      (suspend e scope' path) base p :=
  newCell_matches ⟨.evaluate e hscope path, rfl, rfl⟩ .pending

theorem ready_matches {v w : Value} (hvw : v.Alike p w) :
    (newCell (.ready v)).Matches (fun b q x y => b = base ∧ q.record = p.record ∧ q.cell x y)
      (newCell (.ready w)) base p :=
  newCell_matches ⟨.constant hvw, hvw.location, hvw.path⟩ (.finished hvw)

theorem addValue_matches {r k : RecordId} (hsole : p.Sole r k) (hopen : base ≤ k) (name : String)
    {v w : Value} (hvw : v.Alike p w) :
    (addValue r name v).Matches (fun b q _ _ => b = base ∧ q.record = p.record)
      (addValue k name w) base p := by
  refine .bind (ready_matches hvw) ?_
  rintro b q c d hpq ⟨rfl, hrecord, hcd⟩
  have hsole' : q.Sole r k := by rwa [Pairing.Sole, hrecord]
  refine (addMember_matches hsole' hopen name ⟨hvw.location, hcd⟩).imp ?_
  rintro b' q' - - - ⟨rfl, rfl⟩
  exact ⟨rfl, hrecord⟩

end Steps

end Program

end NetDesc
