import NetDesc.Proofs.Lockstep.World

namespace NetDesc

variable {old : Nat} {own : CellId → Option CellId} {later : Store} {W W' : Pairing}
  {s t t' : Store}

structure Coupled (old : Nat) (own : CellId → Option CellId) (later : Store) (W : Pairing)
    (t : Store) : Prop where
  recent : ∀ {c d}, W.cell c d → old ≤ c
  inside : ∀ {c d}, W.cell c d → d < t.cells.size
  functional : ∀ {c d d'}, W.cell c d → W.cell c d' → d = d'
  injective : ∀ {c c' d}, W.cell c d → W.cell c' d → c = c'
  ahead : ∀ {c d w}, W.cell c d → (t.cell d).progress = .finished w →
    ∃ v, (later.cell c).progress = .finished v ∧ v.Alike W w
  owned : ∀ {c d y}, W.cell c d → own c = some y → ∃ b, W.cell y b ∧ (t.cell b).progress ≠ .pending

/-- What changes while the second evaluation goes on from `t` to `t'`: whatever was running there
    still is, and cells that newly correspond are `mine`, or owned by a cell that was not
    running. -/
structure Frame (own : CellId → Option CellId) (mine : CellId → Prop) (W : Pairing) (t : Store)
    (W' : Pairing) (t' : Store) : Prop where
  le : W ≤ W'
  size : t.cells.size ≤ t'.cells.size
  running : ∀ d, (t'.cell d).progress = .running ↔ (t.cell d).progress = .running
  new : ∀ {c d}, W'.cell c d → W.cell c d ∨ t.cells.size ≤ d ∧
    (mine c ∨ ∃ y, own c = some y ∧ ∀ b, W.cell y b → (t.cell b).progress ≠ .running)

/-- What the second evaluation is computing right now is not finished in `final`. -/
def Idle (final : Store) (W : Pairing) (t : Store) : Prop :=
  ∀ {c d v}, W.cell c d → (t.cell d).progress = .running → c < final.cells.size →
    (final.cell c).progress ≠ .finished v

/-- Both evaluations are inside of the computation of `owner`, or outside of any. -/
structure Within (own : CellId → Option CellId) (owner : Option CellId) (s : Store) (W : Pairing)
    (t : Store) : Prop where
  fresh : ∀ {c d}, W.cell c d → own c = owner → c < s.cells.size
  busy : ∀ {y}, owner = some y → ∃ b, W.cell y b ∧ (t.cell b).progress = .running

/-- Places beyond the end are not being computed. -/
theorem Store.inside_of_running {d : CellId} (h : (t.cell d).progress = .running) :
    d < t.cells.size := by
  rcases Nat.lt_or_ge d t.cells.size with hd | hd
  · exact hd
  · rw [Store.cell_of_size_le hd] at h
    cases h

namespace Coupled

/-- More may have been finished later. -/
theorem grow {u : Store} {base : Nat} (h : Coupled old own later W t) (hW : later.Alike W t)
    (hlater : later.Extends base u) : Coupled old own u W t :=
  { h with
    ahead := fun hcd hd => by
      obtain ⟨v, hv, hvw⟩ := h.ahead hcd hd
      exact ⟨v, hlater.finished _ (hW.cell hcd).1 v hv, hvw⟩ }

/-- Only cells matter. -/
theorem same (h : Coupled old own later W t) (ht : t'.cells = t.cells) (hle : W ≤ W')
    (hW : W'.cell = W.cell) : Coupled old own later W' t' where
  recent hcd := h.recent (hW ▸ hcd)
  inside hcd := by
    rw [ht]
    exact h.inside (hW ▸ hcd)
  functional hcd hcd' := h.functional (hW ▸ hcd) (hW ▸ hcd')
  injective hcd hcd' := h.injective (hW ▸ hcd) (hW ▸ hcd')
  ahead hcd hd := by
    simp only [Store.cell, ht] at hd
    obtain ⟨v, hv, hvw⟩ := h.ahead (hW ▸ hcd) hd
    exact ⟨v, hv, hvw.mono hle⟩
  owned hcd hown := by
    obtain ⟨b, hb, hpending⟩ := h.owned (hW ▸ hcd) hown
    refine ⟨b, hW ▸ hb, ?_⟩
    simpa only [Store.cell, ht] using hpending

/-- New cells correspond to each other only. -/
theorem newCell (h : Coupled old own later W t) {n : CellId} {c d : Cell} (hold : old ≤ n)
    (hfresh : ∀ d, ¬ W.cell n d) (hbusy : ∀ {y}, own n = some y →
      ∃ b, W.cell y b ∧ (t.cell b).progress = .running)
    (hfinished : ∀ v, c.progress = .finished v → (later.cell n).progress = .finished v)
    (hcd : c.progress.Alike W d.progress) :
    Coupled old own later (W.addCell n t.cells.size) { t with cells := t.cells.push d } := by
  have hsame {b : CellId} (hb : b < t.cells.size) :
      ({ t with cells := t.cells.push d } : Store).cell b = t.cell b := by
    simp [Nat.ne_of_lt hb]
  have hle : W ≤ W.addCell n t.cells.size := W.le_addCell _ _
  refine ⟨?_, ?_, ?_, ?_, ?_, ?_⟩
  · rintro x y (hxy | ⟨rfl, rfl⟩)
    · exact h.recent hxy
    · exact hold
  · rintro x y (hxy | ⟨rfl, rfl⟩)
    · simpa using Nat.lt_succ_of_lt (h.inside hxy)
    · simp
  · rintro x y y' (hxy | ⟨rfl, rfl⟩) (hxy' | ⟨heq, rfl⟩)
    · exact h.functional hxy hxy'
    · exact absurd (heq ▸ hxy) (hfresh y)
    · exact absurd hxy' (hfresh y')
    · rfl
  · rintro x x' y (hxy | ⟨rfl, rfl⟩) (hxy' | ⟨rfl, heq⟩)
    · exact h.injective hxy hxy'
    · exact absurd (h.inside hxy) (heq ▸ Nat.lt_irrefl _)
    · exact absurd (h.inside hxy') (Nat.lt_irrefl _)
    · rfl
  · rintro x y w (hxy | ⟨rfl, rfl⟩) hw
    · rw [hsame (h.inside hxy)] at hw
      obtain ⟨v, hv, hvw⟩ := h.ahead hxy hw
      exact ⟨v, hv, hvw.mono hle⟩
    · simp only [Store.cell_push, if_true] at hw
      rw [hw] at hcd
      generalize hp : c.progress = p at hcd
      cases hcd with
      | @finished v _ hvw => exact ⟨v, hfinished v hp, hvw.mono hle⟩
  · rintro x y z (hxy | ⟨rfl, rfl⟩) hown
    · obtain ⟨b, hb, hpending⟩ := h.owned hxy hown
      exact ⟨b, hle.cell hb, by rwa [hsame (h.inside hb)]⟩
    · obtain ⟨b, hb, hrunning⟩ := hbusy hown
      refine ⟨b, hle.cell hb, ?_⟩
      rw [hsame (h.inside hb), hrunning]
      rintro ⟨⟩

/-- A cell that is started, or finished with a value like that of its counterpart. -/
theorem setProgress (h : Coupled old own later W t) {z a : CellId} {p : Progress}
    (hza : W.cell z a) (hp : p ≠ .pending)
    (hfinished : ∀ w, p = .finished w → ∃ v, (later.cell z).progress = .finished v ∧ v.Alike W w) :
    Coupled old own later W (t.setProgress a p) :=
  { h with
    inside := fun hcd => by simpa using h.inside hcd
    ahead := fun {c d w} hcd hw => by
      rw [Store.setProgress_cell] at hw
      split at hw
      · next heq =>
        obtain ⟨rfl, -⟩ := heq
        rw [h.injective hcd hza]
        exact hfinished w hw
      · exact h.ahead hcd hw
    owned := fun {c d y} hcd hown => by
      obtain ⟨b, hb, hpending⟩ := h.owned hcd hown
      refine ⟨b, hb, ?_⟩
      rw [Store.setProgress_cell]
      split
      · exact hp
      · exact hpending }

end Coupled

namespace Frame

variable {mine mine' : CellId → Prop}

theorem refl (own : CellId → Option CellId) (mine : CellId → Prop) (W : Pairing) (t : Store) :
    Frame own mine W t W t :=
  ⟨W.le_refl, Nat.le_refl _, fun _ => Iff.rfl, fun h => .inl h⟩

theorem mono (h : Frame own mine W t W' t') (hmine : ∀ c, mine c → mine' c) :
    Frame own mine' W t W' t' :=
  { h with
    new := fun hcd => (h.new hcd).imp_right fun hnew => ⟨hnew.1, hnew.2.imp_left (hmine _)⟩ }

theorem trans {W'' : Pairing} {t'' : Store} (h : Frame own mine W t W' t')
    (h' : Frame own mine W' t' W'' t'') : Frame own mine W t W'' t'' where
  le := Pairing.le_trans h.le h'.le
  size := Nat.le_trans h.size h'.size
  running d := (h'.running d).trans (h.running d)
  new hcd := by
    rcases h'.new hcd with hcd | ⟨hd, hmine | ⟨y, hy, hidle⟩⟩
    · exact h.new hcd
    · exact .inr ⟨Nat.le_trans h.size hd, .inl hmine⟩
    · refine .inr ⟨Nat.le_trans h.size hd, .inr ⟨y, hy, fun b hb hrunning => ?_⟩⟩
      exact hidle b (h.le.cell hb) ((h.running b).2 hrunning)

theorem same {W'' : Pairing} {t'' : Store} (h : Frame own mine W t W' t')
    (ht : t''.cells = t'.cells) (hle : W' ≤ W'') (hW : W''.cell = W'.cell) :
    Frame own mine W t W'' t'' where
  le := Pairing.le_trans h.le hle
  size := by
    rw [ht]
    exact h.size
  running d := by
    simp only [Store.cell, ht]
    exact h.running d
  new hcd := h.new (hW ▸ hcd)

theorem newCell (h : Frame own mine W t W' t') {n : CellId} {d : Cell} (hmine : mine n)
    (hd : d.progress ≠ .running) :
    Frame own mine W t (W'.addCell n t'.cells.size) { t' with cells := t'.cells.push d } where
  le := Pairing.le_trans h.le (W'.le_addCell _ _)
  size := by simpa using Nat.le_succ_of_le h.size
  running b := by
    rw [Store.cell_push]
    split
    · next heq =>
      refine iff_of_false hd fun hrunning => ?_
      exact absurd (Store.inside_of_running hrunning) (Nat.not_lt.2 (heq ▸ h.size))
    · exact h.running b
  new := by
    rintro x y (hxy | ⟨rfl, rfl⟩)
    · exact h.new hxy
    · exact .inr ⟨h.size, .inl hmine⟩

/-- From outside, computing a cell makes only cells that are owned by it or by others that were
    started after it. -/
theorem force {z a : CellId} {p : Progress}
    (h : Frame own (fun c => own c = some z) W (t.setProgress a .running) W' t')
    (hfunctional : ∀ {d}, W.cell z d → d = a) (hpending : (t.cell a).progress = .pending)
    (ha : a < t.cells.size) (hp : p ≠ .running) :
    Frame own (fun _ => False) W t W' (t'.setProgress a p) where
  le := h.le
  size := by simpa using h.size
  running d := by
    have hd := h.running d
    rw [Store.setProgress_running_iff] at hd
    rw [Store.setProgress_cell]
    split
    · next heq =>
      obtain ⟨rfl, -⟩ := heq
      simp [hp, hpending]
    · next hne =>
      rw [hd]
      have hat : a < t'.cells.size := by simpa using Nat.lt_of_lt_of_le ha (by simpa using h.size)
      constructor
      · rintro (⟨rfl, -⟩ | hrunning)
        · exact absurd ⟨rfl, hat⟩ hne
        · exact hrunning
      · exact .inr
  new := by
    intro c d hcd
    refine (h.new hcd).imp_right fun ⟨hd, hnew⟩ => ⟨by simpa using hd, .inr ?_⟩
    rcases hnew with hown | ⟨y, hy, hidle⟩
    · refine ⟨z, hown, fun b hb => ?_⟩
      rw [hfunctional hb, hpending]
      rintro ⟨⟩
    · exact ⟨y, hy, fun b hb hrunning =>
        hidle b hb (Store.setProgress_running_iff.2 (.inr hrunning))⟩

end Frame

section Carried

variable {mine : CellId → Prop} {owner : Option CellId} {final u : Store}

theorem Idle.frame (h : Idle final W t) (hframe : Frame own mine W t W' t') : Idle final W' t' := by
  intro c d v hcd hrunning hc
  have hrunning' := (hframe.running d).1 hrunning
  rcases hframe.new hcd with hcd | ⟨hd, -⟩
  · exact h hcd hrunning' hc
  · exact absurd (Store.inside_of_running hrunning') (Nat.not_lt.2 hd)

/-- Less is finished earlier. -/
theorem Idle.earlier {base : Nat} (h : Idle final W t) (hu : u.Extends base final) : Idle u W t :=
  fun hcd hrunning hc hv =>
    h hcd hrunning (Nat.lt_of_lt_of_le hc hu.covers.cells) (hu.finished _ hc _ hv)

theorem Within.frame (h : Within own owner s W t)
    (hframe : Frame own (fun c => own c = owner ∧ c < u.cells.size) W t W' t')
    (hsu : s.cells.size ≤ u.cells.size) : Within own owner u W' t' where
  fresh := by
    intro c d hcd hown
    rcases hframe.new hcd with hcd | ⟨-, ⟨-, hc⟩ | ⟨y, hy, hidle⟩⟩
    · exact Nat.lt_of_lt_of_le (h.fresh hcd hown) hsu
    · exact hc
    · obtain ⟨b, hb, hrunning⟩ := h.busy (hown.symm.trans hy)
      exact absurd hrunning (hidle b hb)
  busy hy := by
    obtain ⟨b, hb, hrunning⟩ := h.busy hy
    exact ⟨b, hframe.le.cell hb, (hframe.running b).2 hrunning⟩

/-- A cell that waits owns nothing yet, so its computation may start. What is owned by a cell is
    there because that one has been started. -/
theorem Coupled.within_start (h : Coupled old own later W t) {z a : CellId} (hza : W.cell z a)
    (hpending : (t.cell a).progress = .pending) (s : Store) :
    Within own (some z) s W (t.setProgress a .running) where
  fresh hcd hown := by
    obtain ⟨b, hb, hstarted⟩ := h.owned hcd hown
    rw [h.functional hb hza] at hstarted
    exact absurd hpending hstarted
  busy := by
    rintro y ⟨⟩
    exact ⟨a, hza, Store.setProgress_running_iff.2 (.inl ⟨rfl, h.inside hza⟩)⟩

end Carried

end NetDesc
