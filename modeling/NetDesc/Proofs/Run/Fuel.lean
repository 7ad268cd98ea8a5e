import NetDesc.Proofs.Run.Calls

namespace NetDesc

namespace Outcome

variable {α β : Type}

/-- A run that was given up may end in any way with more fuel. -/
instance : LE (Outcome α) :=
  ⟨fun o o' => o = exhausted ∨ o = o'⟩

theorem le_refl (o : Outcome α) : o ≤ o :=
  .inr rfl

theorem exhausted_le (o : Outcome α) : exhausted ≤ o :=
  .inl rfl

theorem bind_le {o o' : Outcome α} {f g : α → Store → Outcome β} (h : o ≤ o')
    (hfg : ∀ a s, f a s ≤ g a s) : o.bind f ≤ o'.bind g := by
  rcases h with rfl | rfl
  · exact exhausted_le _
  · cases o with
    | value a s => exact hfg a s
    | error e s => exact le_refl _
    | exhausted => exact le_refl _

theorem through_le {o o' : Outcome α} (h : o ≤ o') (location : Location) :
    o.through location ≤ o'.through location := by
  rcases h with rfl | rfl
  · exact exhausted_le _
  · exact le_refl _

theorem settle_le {o o' : Outcome Value} (h : o ≤ o') (cell : CellId) :
    Evaluator.settle cell o ≤ Evaluator.settle cell o' := by
  rcases h with rfl | rfl
  · exact exhausted_le _
  · exact le_refl _

/-- With enough fuel the outcome is `o`. A run that was given up may end in any way with more
    fuel, and a run that has ended ends the same way. -/
def Eventually (f : Nat → Outcome α) (o : Outcome α) : Prop :=
  ∃ n, ∀ m, n ≤ m → f m = o

theorem Eventually.congr {f g : Nat → Outcome α} {o : Outcome α} (hg : Eventually g o)
    (hfg : ∀ n, f (n + 1) = g n) : Eventually f o := by
  obtain ⟨n, hn⟩ := hg
  refine ⟨n + 1, fun m hm => ?_⟩
  obtain ⟨k, rfl⟩ := Nat.exists_eq_add_of_le hm
  rw [Nat.add_right_comm, hfg]
  exact hn _ (Nat.le_add_right n k)

theorem Eventually.through {f : Nat → Outcome α} {o : Outcome α} (h : Eventually f o)
    (location : Location) : Eventually (fun n => (f n).through location) (o.through location) := by
  obtain ⟨n, hn⟩ := h
  exact ⟨n, fun m hm => congrArg (·.through location) (hn m hm)⟩

theorem Eventually.settle {f : Nat → Outcome Value} {o : Outcome Value} (h : Eventually f o)
    (cell : CellId) :
    Eventually (fun n => Evaluator.settle cell (f n)) (Evaluator.settle cell o) := by
  obtain ⟨n, hn⟩ := h
  exact ⟨n, fun m hm => congrArg (Evaluator.settle cell) (hn m hm)⟩

theorem Eventually.unique {f : Nat → Outcome α} {o o' : Outcome α} (h : Eventually f o)
    (h' : Eventually f o') : o = o' := by
  obtain ⟨n, hn⟩ := h
  obtain ⟨m, hm⟩ := h'
  exact (hn (n + m) (Nat.le_add_right n m)).symm.trans (hm (n + m) (Nat.le_add_left m n))

/-- Both outcomes are the same once there is enough fuel, and until then the first run is given up
    at the latest where the second is. -/
structure Tracks (f g : Nat → Outcome α) : Prop where
  eventually : ∃ n, ∀ m, n ≤ m → f m = g m
  le : ∀ n, f n ≤ g n

theorem Tracks.refl (f : Nat → Outcome α) : Tracks f f :=
  ⟨⟨0, fun _ _ => rfl⟩, fun n => le_refl (f n)⟩

theorem Tracks.trans {f g h : Nat → Outcome α} (hfg : Tracks f g) (hgh : Tracks g h) :
    Tracks f h where
  eventually := by
    obtain ⟨n, hn⟩ := hfg.eventually
    obtain ⟨m, hm⟩ := hgh.eventually
    refine ⟨n + m, fun k hk => ?_⟩
    rw [hn k (Nat.le_trans (Nat.le_add_right n m) hk),
      hm k (Nat.le_trans (Nat.le_add_left m n) hk)]
  le n := by
    rcases hfg.le n with h | h
    · exact .inl h
    · rw [h]
      exact hgh.le n

theorem Tracks.exhausted {f g : Nat → Outcome α} (hfg : Tracks f g) {n : Nat}
    (h : g n = exhausted) : f n = exhausted :=
  (hfg.le n).elim id fun heq => heq.trans h

/-- Once a run ends with a result, the rest is what goes on from there. -/
theorem Eventually.tracks_bind {f : Nat → Outcome α} {a : α} {s : Store}
    (h : Eventually f (.value a s)) (hf : ∀ n m, n ≤ m → f n ≤ f m)
    (g : Nat → α → Store → Outcome β) :
    Tracks (fun n => (f n).bind (g n)) fun n => g n a s := by
  obtain ⟨n, hn⟩ := h
  refine ⟨⟨n, fun m hm => ?_⟩, fun m => ?_⟩
  · simp only [hn m hm, Outcome.bind]
  · have hm := hf m (n + m) (Nat.le_add_left m n)
    rw [hn (n + m) (Nat.le_add_right n m)] at hm
    rcases hm with hm | hm <;> rw [hm]
    · exact exhausted_le _
    · exact le_refl _

theorem Tracks.outcome {f g : Nat → Outcome α} (hfg : Tracks f g) {o : Outcome α}
    (h : Eventually g o) : Eventually f o := by
  obtain ⟨n, hn⟩ := hfg.eventually
  obtain ⟨m, hm⟩ := h
  refine ⟨n + m, fun k hk => ?_⟩
  rw [hn k (Nat.le_trans (Nat.le_add_right n m) hk),
    hm k (Nat.le_trans (Nat.le_add_left m n) hk)]

end Outcome

namespace Program

variable {α : Type}

/-- More fuel does not change how a run ends. -/
def Monotone (R : Nat → (c : Call) → Store → Outcome c.Reply) : Prop :=
  ∀ (n m : Nat), n ≤ m → ∀ (c : Call) (s : Store), R n c s ≤ R m c s

theorem run_le {carryOut carryOut' : (c : Call) → Store → Outcome c.Reply}
    (h : ∀ c s, carryOut c s ≤ carryOut' c s) (x : Program α) (s : Store) :
    x.run carryOut s ≤ x.run carryOut' s := by
  induction x generalizing s with
  | done result => exact Outcome.le_refl _
  | raise e => exact Outcome.le_refl _
  | access a next ih => exact ih _ _
  | call c next ih =>
    rw [run, run]
    rcases h c s with h | h
    · rw [h]
      exact Outcome.exhausted_le _
    · rw [h]
      cases carryOut' c s with
      | value reply t => exact ih reply t
      | error e t => exact Outcome.le_refl _
      | exhausted => exact Outcome.le_refl _

/-- Once a call is answered, the run is that of what is left. -/
theorem Monotone.tracks_call {R : Nat → (c : Call) → Store → Outcome c.Reply} (hR : Monotone R)
    {c : Call} {next : c.Reply → Program α} {s t : Store} {reply : c.Reply}
    (h : Outcome.Eventually (fun n => R n c s) (.value reply t)) :
    Outcome.Tracks (fun n => (call c next).run (R n) s) (fun n => (next reply).run (R n) t) := by
  obtain ⟨n, hn⟩ := h
  refine ⟨⟨n, fun m hm => ?_⟩, fun m => ?_⟩
  · simp only [run, hn m hm]
  · have hlate : R (n + m) c s = .value reply t := hn (n + m) (Nat.le_add_right n m)
    have hm := hR m (n + m) (Nat.le_add_left m n) c s
    rw [hlate] at hm
    simp only [run]
    rcases hm with hm | hm <;> rw [hm]
    · exact Outcome.exhausted_le _
    · exact Outcome.le_refl _

end Program

namespace Evaluator

variable (ev : Evaluator)

/-- With more fuel a call that is answered is answered the same. -/
theorem carryOut_monotone (depth : Nat) : Program.Monotone (ev.carryOut · depth) := by
  intro n
  induction n generalizing depth with
  | zero => exact fun m _ c s => .inl (carryOut_zero ev depth s c)
  | succ n ih =>
    intro m hm c s
    obtain ⟨m, rfl⟩ := Nat.exists_eq_add_of_le' (Nat.lt_of_lt_of_le (Nat.succ_pos n) hm)
    have hnm : n ≤ m := Nat.le_of_succ_le_succ hm
    have hrun {α : Type} (depth : Nat) (x : Program α) (s : Store) :
        x.run (ev.carryOut n depth) s ≤ x.run (ev.carryOut m depth) s :=
      Program.run_le (ih depth m hnm) x s
    cases c with
    | perform task =>
      cases task with
      | evaluate e scope path =>
        rcases Nat.lt_or_ge depth ev.maxDepth with hdepth | hdepth
        · simp only [carryOut_evaluate ev _ s hdepth]
          exact Outcome.through_le (hrun (depth + 1) _ s) e.location
        · simp only [carryOut_evaluate_deep ev _ s hdepth]
          exact Outcome.le_refl _
      | element initializer index path location =>
        exact Outcome.through_le (hrun depth _ s) location
      | constant v => exact Outcome.le_refl _
    | force cell =>
      cases hprogress : (s.cell cell).progress with
      | finished v =>
        simp only [carryOut_force_finished ev _ depth hprogress]
        exact Outcome.le_refl _
      | running =>
        simp only [carryOut_force_running ev _ depth hprogress]
        exact Outcome.le_refl _
      | pending =>
        simp only [carryOut_force_pending ev _ depth hprogress]
        exact Outcome.settle_le (ih depth m hnm _ _) cell
    | render spec v => exact hrun depth _ s
    | tie work visited => exact hrun depth _ s

end Evaluator

end NetDesc
