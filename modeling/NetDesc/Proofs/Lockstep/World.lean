import NetDesc.Proofs.Lockstep.Program
import NetDesc.Proofs.Store.WellFormed

namespace NetDesc

section Upto

variable {p : Pairing} {s : Store}

theorem Function.Alike.upto {f g : Function} (h : f.Alike p g) (hf : f.Valid s) :
    f.Alike (p.upto s) g := by
  refine { h with named := ?_, scope := ⟨h.scope, hf.scope⟩ }
  have hboth := (List.forall₂_and_left _ _).2 ⟨hf.named, h.named⟩
  exact hboth.imp fun _ _ hx => ⟨hx.2.1, hx.2.2, hx.1⟩

theorem Payload.Alike.upto {x y : Payload} (h : x.Alike p y) (hx : x.Valid s) :
    x.Alike (p.upto s) y := by
  cases h with
  | number x => exact .number x
  | text x => exact .text x
  | truth x => exact .truth x
  | record h => exact .record ⟨h, hx⟩
  | @array a b hfirst hcells =>
    refine .array hfirst ?_
    have hvalid : ∀ c ∈ a.cells.toList, c < s.cells.size := fun c hc =>
      hx c (Array.mem_toList_iff.1 hc)
    have hboth := (List.forall₂_and_left _ _).2 ⟨hvalid, hcells⟩
    exact hboth.imp fun c d (hcd : c < s.cells.size ∧ p.cell c d) => ⟨hcd.2, hcd.1⟩
  | function h => exact .function (h.upto hx)

theorem Value.Alike.upto {v w : Value} (h : v.Alike p w) (hv : v.Valid s) :
    v.Alike (p.upto s) w :=
  { h with payload := h.payload.upto hv }

theorem Task.Alike.upto {k l : Task} (h : k.Alike p l) (hk : k.Valid s) :
    k.Alike (p.upto s) l := by
  cases h with
  | evaluate e h path => exact .evaluate e (And.intro h hk) path
  | element hfun hindex path location =>
    exact .element (hfun.upto hk.1) (hindex.upto hk.2) path location
  | constant h => exact .constant (h.upto hk)

theorem Record.Alike.upto {r k : Record} (h : r.Alike p k) (hr : r.Valid s) :
    r.Alike (p.upto s) k where
  members := by
    have hvalid : ∀ x ∈ r.members.toList, x.2.cell < s.cells.size := fun x hx =>
      hr.members x (Array.mem_toList_iff.1 hx)
    have hboth := (List.forall₂_and_left _ _).2 ⟨hvalid, h.members⟩
    exact hboth.imp fun _ _ hx => ⟨hx.2.1, hx.2.2.location, hx.2.2.cell, hx.1⟩
  enclosing := by
    have hboth := (List.forall₂_and_left _ _).2 ⟨hr.enclosing, h.enclosing⟩
    exact hboth.imp fun x y (hxy : x < s.records.size ∧ p.record x y) => ⟨hxy.2, hxy.1⟩

end Upto

namespace Store

variable {p q : Pairing} {s t u : Store}

theorem Alike.join (hp : s.Alike p t) (hq : s.Alike q t) : s.Alike (p.join q) t where
  cell := by
    rintro c d (h | h)
    · obtain ⟨hc, hd, halike⟩ := hp.cell h
      exact ⟨hc, hd, halike.mono (p.left_le_join q)⟩
    · obtain ⟨hc, hd, halike⟩ := hq.cell h
      exact ⟨hc, hd, halike.mono (p.right_le_join q)⟩
  record := by
    rintro r k (h | h)
    · obtain ⟨hr, hk, halike⟩ := hp.record h
      exact ⟨hr, hk, halike.mono (p.left_le_join q)⟩
    · obtain ⟨hr, hk, halike⟩ := hq.record h
      exact ⟨hr, hk, halike.mono (p.right_le_join q)⟩

/-- Computations stay what they are, and so do the records that are complete. What is alike in
    two stores is alike in later ones. -/
theorem Alike.later (h : s.Alike p t) (hsu : s.Extends s.records.size u) : u.Alike p t where
  cell := by
    intro c d hcd
    obtain ⟨hc, hd, htask, hlocation, hpath⟩ := h.cell hcd
    refine ⟨Nat.lt_of_lt_of_le hc hsu.covers.cells, hd, ?_, ?_, ?_⟩
    · rwa [hsu.task c hc]
    · rwa [hsu.location c hc]
    · rwa [hsu.path c hc]
  record := by
    intro r k hrk
    obtain ⟨hr, hk, halike⟩ := h.record hrk
    refine ⟨Nat.lt_of_lt_of_le hr hsu.covers.records, hk, ?_⟩
    rwa [hsu.record r hr]

/-- What corresponds to a place that an earlier store has corresponds to it there, too. -/
theorem Alike.upto (h : u.Alike p t) (hs : s.WellFormed s.records.size)
    (hsu : s.Extends s.records.size u) : s.Alike (p.upto s) t where
  cell := by
    rintro c d ⟨hcd, hc⟩
    obtain ⟨-, hd, htask, hlocation, hpath⟩ := h.cell hcd
    rw [hsu.task c hc] at htask
    rw [hsu.location c hc] at hlocation
    rw [hsu.path c hc] at hpath
    exact ⟨hc, hd, htask.upto (hs.cell c hc).task, hlocation, hpath⟩
  record := by
    rintro r k ⟨hrk, hr⟩
    obtain ⟨-, hk, halike⟩ := h.record hrk
    rw [hsu.record r hr] at halike
    exact ⟨hr, hk, halike.upto (hs.record r hr)⟩

/-- How far the cells of the second run have come does not matter. -/
theorem Alike.setProgress (h : s.Alike p t) (d : CellId) (x : Progress) :
    s.Alike p (t.setProgress d x) where
  cell := by
    intro c e hce
    obtain ⟨hc, he, htask, hlocation, hpath⟩ := h.cell hce
    refine ⟨hc, by simpa using he, ?_⟩
    rw [setProgress_cell]
    split <;> exact ⟨htask, hlocation, hpath⟩
  record := h.record

/-- Steps of the second run do not touch what is complete in its store. -/
theorem Alike.perform (h : s.Alike p t) {base : Nat} (hsealed : ∀ r k, p.record r k → k < base)
    {a b : Access} {q : Pairing} (hab : a.Paired base q b) : s.Alike p (b.perform t).2 := by
  cases b with
  | newCell d =>
    refine { h with cell := fun {x y} hxy => ?_ }
    obtain ⟨hx, hy, halike⟩ := h.cell hxy
    simp only [Access.perform, cell_push, if_neg (Nat.ne_of_lt hy), Array.size_push]
    exact ⟨hx, Nat.lt_succ_of_lt hy, halike⟩
  | newRecord parent =>
    refine { h with record := fun {x y} hxy => ?_ }
    obtain ⟨hx, hy, halike⟩ := h.record hxy
    simp only [Access.perform, record_push, if_neg (Nat.ne_of_lt hy), Array.size_push]
    exact ⟨hx, Nat.lt_succ_of_lt hy, halike⟩
  | addMember k name m =>
    have hopen : base ≤ k := by
      cases a with
      | addMember => exact hab
      | _ => exact hab.elim
    refine { h with record := fun {x y} hxy => ?_ }
    obtain ⟨hx, hy, halike⟩ := h.record hxy
    have hne : k ≠ y := (Nat.ne_of_lt (Nat.lt_of_lt_of_le (hsealed x y hxy) hopen)).symm
    simp only [Access.perform, record_modify, Array.size_modify]
    rw [if_neg fun hand => hne hand.1]
    exact ⟨hx, hy, halike⟩
  | readCell | readRecord | find => exact h
  | _ => cases a <;> exact hab.elim

end Store

end NetDesc
