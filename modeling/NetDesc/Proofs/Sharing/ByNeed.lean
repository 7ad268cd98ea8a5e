import NetDesc.Proofs.Lockstep.Evaluator
import NetDesc.Proofs.Lockstep.Run
import NetDesc.Proofs.Sharing.Coupled
import NetDesc.Proofs.Sharing.Owners

namespace NetDesc

open Outcome (Eventually)

/-- With enough fuel the runs end with a value like `v`, and what corresponds stays coupled. -/
def EndsCoupled (old : Nat) (own : CellId → Option CellId) (later : Store) (mine : CellId → Prop)
    (W : Pairing) (t : Store) (v : Value) (f : Nat → Outcome Value) : Prop :=
  ∃ (W' : Pairing) (t' : Store) (w : Value), later.Alike W' t' ∧ Coupled old own later W' t' ∧
    Frame own mine W t W' t' ∧ v.Alike W' w ∧ Eventually f (.value w t')

namespace EndsCoupled

variable {old : Nat} {own : CellId → Option CellId} {later : Store} {mine mine' : CellId → Prop}
  {W : Pairing} {t : Store} {v : Value} {f g : Nat → Outcome Value}

theorem mono (h : EndsCoupled old own later mine W t v f) (hmine : ∀ c, mine c → mine' c) :
    EndsCoupled old own later mine' W t v f := by
  obtain ⟨W', t', w, hW', hcoupled, hframe, hvw, heventually⟩ := h
  exact ⟨W', t', w, hW', hcoupled, hframe.mono hmine, hvw, heventually⟩

/-- One more step that passes values on. -/
theorem step (h : EndsCoupled old own later mine W t v f)
    (hfg : ∀ n w t, f n = .value w t → g (n + 1) = .value w t) :
    EndsCoupled old own later mine W t v g := by
  obtain ⟨W', t', w, hW', hcoupled, hframe, hvw, n, hn⟩ := h
  refine ⟨W', t', w, hW', hcoupled, hframe, hvw, n + 1, fun m hm => ?_⟩
  obtain ⟨m, rfl⟩ := Nat.exists_eq_add_of_le' (Nat.lt_of_lt_of_le (Nat.succ_pos n) hm)
  exact hfg m w t' (hn m (Nat.le_of_succ_le_succ hm))

end EndsCoupled

namespace Evaluator

variable (ev : Evaluator) (old : Nat) (own : CellId → Option CellId)

/-- Accessing the cell gives a value like `v`, in any store that has not started what is finished
    in `s`. Another evaluation computes what it needs and takes what it has already, and meets
    nothing that is being computed. -/
def Replays (s later : Store) (z : CellId) (v : Value) : Prop :=
  ∀ (W : Pairing) (t : Store) (a : CellId), later.Alike W t → Coupled old own later W t →
    Idle s W t → W.cell z a → EndsCoupled old own later (fun _ => False) W t v
      fun n => ev.carryOutFreely .byNeed n (.force a) t

/-- The computations of finished cells can be replayed, now and later. -/
def Replayable (base : Nat) (s : Store) : Prop :=
  ∀ (z : CellId) (v : Value), old ≤ z → z < s.cells.size →
    (s.cell z).progress = .finished v → ∀ later, s.Extends base later →
      ev.Replays old own s later z v

/-- A way to carry out calls that keeps finished cells replayable, and whose own calls can be
    replayed. `owns` labels the cells that a call makes with their owners. -/
structure RefinesByNeed (carryOut : (c : Call) → Store → Outcome c.Reply)
    (owns : Option CellId → Call → Store → Prop) : Prop where
  promised : Program.Promised carryOut
  keeps : ∀ {owner : Option CellId} {c : Call} {s t : Store}, s.WellFormed s.records.size →
    c.Valid s → owns owner c s → ev.Replayable old own s.records.size s →
      (carryOut c s).store? = some t → ev.Replayable old own t.records.size t
  value : ∀ {owner : Option CellId} {k : Task} {s u : Store} {v : Value},
    s.WellFormed s.records.size → k.Valid s → owns owner (.perform k) s →
    ev.Replayable old own s.records.size s → old ≤ s.cells.size →
    carryOut (.perform k) s = .value v u → ∀ {later t : Store} {W : Pairing} {l : Task},
      u.Extends u.records.size later → later.Alike W t → Coupled old own later W t →
      Within own owner s W t → Idle u W t → k.Alike W l →
        EndsCoupled old own later (fun c => own c = owner ∧ c < u.cells.size) W t v
          fun n => ev.carryOutFreely .byNeed n (.perform l) t

variable {ev old own}

/-- A cell that waits is started, computed and finished. -/
theorem force_pending {later : Store} {W : Pairing} {t : Store} {z a : CellId} {v : Value}
    (hcoupled : Coupled old own later W t) (hza : W.cell z a)
    (hpending : (t.cell a).progress = .pending) (hv : (later.cell z).progress = .finished v)
    (h : EndsCoupled old own later (fun c => own c = some z) W (t.setProgress a .running) v
      fun n => ev.carryOutFreely .byNeed n (.perform (t.cell a).task) (t.setProgress a .running)) :
    EndsCoupled old own later (fun _ => False) W t v
      fun n => ev.carryOutFreely .byNeed n (.force a) t := by
  obtain ⟨W', t', w, hW', hcoupled', hframe, hvw, heventually⟩ := h
  have hza' : W'.cell z a := hframe.le.cell hza
  refine ⟨W', t'.setProgress a (.finished w), w, hW'.setProgress a _, ?_, ?_, hvw, ?_⟩
  · refine hcoupled'.setProgress hza' (by rintro ⟨⟩) ?_
    rintro w' ⟨⟩
    exact ⟨v, hv, hvw⟩
  · exact hframe.force (fun hd => hcoupled.functional hd hza) hpending (hcoupled.inside hza)
      (by rintro ⟨⟩)
  · exact (heventually.settle a).congr fun n => ev.carryOutFreely_force_pending n hpending

/-- What a finished cell holds is read off where its counterpart is finished as well, and replayed
    where it waits. It is not being computed. -/
theorem replays_of_pending {s later : Store} {z : CellId} {v : Value} (hz : z < s.cells.size)
    (hs : (s.cell z).progress = .finished v) (hv : (later.cell z).progress = .finished v)
    (h : ∀ (W : Pairing) (t : Store) (a : CellId), later.Alike W t → Coupled old own later W t →
      Idle s W t → W.cell z a → (t.cell a).progress = .pending →
        EndsCoupled old own later (fun c => own c = some z) W (t.setProgress a .running) v
          fun n => ev.carryOutFreely .byNeed n (.perform (t.cell a).task)
            (t.setProgress a .running)) :
    ev.Replays old own s later z v := by
  intro W t a hW hcoupled hidle hza
  cases hprogress : (t.cell a).progress with
  | pending =>
    exact force_pending hcoupled hza hprogress hv (h W t a hW hcoupled hidle hza hprogress)
  | running => exact absurd hs (hidle hza hprogress hz)
  | finished w =>
    obtain ⟨v', hv', hvw⟩ := hcoupled.ahead hza hprogress
    rw [hv] at hv'
    cases hv'
    have hread : Eventually (fun n => ev.carryOutFreely .byNeed (n + 1) (.force a) t)
        (.value w t) := ⟨0, fun n _ => ev.carryOutFreely_force_finished n hprogress⟩
    exact ⟨W, t, w, hW, hcoupled, .refl _ _ W t, hvw, hread.congr fun _ => rfl⟩

namespace Replayable

variable {base : Nat} {s : Store}

/-- What held before a computation holds after it, for cells that were finished by then. -/
theorem later {bound : Nat} {t : Store} (h : ev.Replayable old own base s)
    (hst : s.Extends base t) (hbase : base ≤ bound) {z : CellId} {v : Value} (hold : old ≤ z)
    (hz : z < s.cells.size) (hv : (s.cell z).progress = .finished v) (later : Store)
    (hlater : t.Extends bound later) : ev.Replays old own t later z v :=
  fun W u a hW hcoupled hidle =>
    h z v hold hz hv later (hst.trans hlater hbase) W u a hW hcoupled (hidle.earlier hst)

theorem weaken {bound : Nat} (h : ev.Replayable old own base s) (hbase : base ≤ bound) :
    ev.Replayable old own bound s :=
  fun z v hold hz hv later hlater => h z v hold hz hv later (hlater.weaken hbase)

/-- A cell that holds its value from the start is computed at once. -/
theorem constant {later : Store} {z : CellId} {v : Value} (hz : z < s.cells.size)
    (hs : (s.cell z).progress = .finished v) (htask : (later.cell z).task = .constant v)
    (hv : (later.cell z).progress = .finished v) : ev.Replays old own s later z v := by
  refine replays_of_pending hz hs hv fun W t a hW hcoupled _ hza _ => ?_
  obtain ⟨-, -, halike, -, -⟩ := hW.cell hza
  rw [htask] at halike
  generalize hl : (t.cell a).task = l at halike
  cases halike with
  | @constant _ w hvw =>
    refine ⟨W, t.setProgress a .running, w, hW.setProgress a _, ?_, .refl _ _ _ _, hvw, ?_⟩
    · exact hcoupled.setProgress hza (by rintro ⟨⟩) (by rintro w ⟨⟩)
    · exact Eventually.congr ⟨0, fun _ _ => rfl⟩ fun n =>
        ev.carryOutFreely_constant .byNeed n (t.setProgress a .running) w

/-- New cells hold nothing that was not known from the start. -/
theorem access {a : Access} (hs : s.WellFormed base) (ha : a.Allowed base s)
    (h : ev.Replayable old own base s) : ev.Replayable old own base (a.perform s).2 := by
  have hext := (ha.grows hs).toExtends
  have hsame (heq : (a.perform s).2.cells = s.cells) :
      ev.Replayable old own base (a.perform s).2 := by
    intro z v hold hz hv
    simp only [Store.cell, heq] at hz hv
    exact h.later hext (Nat.le_refl base) hold hz hv
  cases a with
  | newCell c =>
    intro z v hold hz hv later hlater
    by_cases hnew : z = s.cells.size
    · have hcell : ((Access.newCell c).perform s).2.cell z = c := by simp [Access.perform, hnew]
      have hfinished := hlater.finished z hz v hv
      have hsettled := hv
      rw [hcell] at hv
      rcases ha.2 with hpending | ⟨w, htask, hw⟩
      · rw [hpending] at hv
        cases hv
      · rw [hw] at hv
        cases hv
        refine constant hz hsettled ?_ hfinished
        rw [hlater.task z hz, hcell, htask]
    · have hcell : ((Access.newCell c).perform s).2.cell z = s.cell z := by
        simp [Access.perform, hnew]
      rw [hcell] at hv
      simp only [Access.perform, Array.size_push] at hz
      have hin : z < s.cells.size := Nat.lt_of_le_of_ne (Nat.le_of_lt_succ hz) hnew
      exact h.later hext (Nat.le_refl base) hold hin hv later hlater
  | rename o name => cases o <;> exact hsame rfl
  | _ => exact hsame rfl

/-- Starting a cell changes nothing for those that are finished. -/
theorem start {c : CellId} (h : ev.Replayable old own s.records.size s)
    (hpending : (s.cell c).progress = .pending) :
    ev.Replayable old own s.records.size (s.setProgress c .running) := by
  have hext := s.start_extends s.records.size hpending
  intro z v hold hz hv
  rw [Store.setProgress_cell] at hv
  split at hv
  · cases hv
  · exact h.later hext (Nat.le_refl _) hold (by simpa using hz) hv

end Replayable

/-- A cell that is put back leaves finished cells as they were, and one that is finished holds
    what its computation gave. -/
theorem Replayable.settle {z : CellId} {s : Store} (hz : z < s.cells.size) {o : Outcome Value}
    {P : Store → Value → Prop} (hkept : o.Kept (s.setProgress z .running) P)
    (ho : ∀ t, o.store? = some t → ev.Replayable old own t.records.size t)
    (hvalue : ∀ v u, o = .value v u → ∀ later, u.Extends u.records.size later →
      ∀ (W : Pairing) (t : Store) (a : CellId), later.Alike W t → Coupled old own later W t →
        Idle u W t → Within own (some z) (s.setProgress z .running) W t → W.cell z a →
          EndsCoupled old own later (fun c => own c = some z) W t v
            fun n => ev.carryOutFreely .byNeed n (.perform (t.cell a).task) t)
    {u : Store} (hu : (settle z o).store? = some u) : ev.Replayable old own u.records.size u := by
  have hsettled (t : Store) (hrunning : (t.cell z).progress = .running) (p : Progress)
      (hreplayable : ev.Replayable old own t.records.size t)
      (hp : ∀ v, p = .finished v → ∀ later, (t.setProgress z p).Extends t.records.size later →
        ev.Replays old own (t.setProgress z p) later z v) :
      ev.Replayable old own (t.setProgress z p).records.size (t.setProgress z p) := by
    have hext := t.settle_extends t.records.size hrunning p
    intro y v hold hy hv later hlater
    have hfinished := hv
    rw [Store.setProgress_cell] at hv
    split at hv
    · next heq =>
      obtain ⟨rfl, -⟩ := heq
      exact hp v hv later hlater
    · have hy' : y < t.cells.size := by simpa using hy
      exact hreplayable.later hext (Nat.le_refl _) hold hy' hv later hlater
  cases o with
  | value v t =>
    cases hu
    obtain ⟨hwf, hgrows, -⟩ := hkept
    have hrunning : (t.cell z).progress = .running := hgrows.running_start hz
    refine hsettled t hrunning _ (ho t rfl) ?_
    rintro w ⟨⟩ later hlater
    have hext := t.settle_extends t.records.size hrunning (.finished v)
    have hzt : z < (t.setProgress z (.finished v)).cells.size := by
      simpa using Nat.lt_of_lt_of_le hz (by simpa using hgrows.covers.cells)
    have hfinished : ((t.setProgress z (.finished v)).cell z).progress = .finished v := by
      rw [Store.setProgress_cell, if_pos ⟨rfl, by simpa using hzt⟩]
    refine replays_of_pending hzt hfinished (hlater.finished z hzt v hfinished) ?_
    intro W u a hW hcoupled hidle hza hpending
    have htask : (u.setProgress a .running |>.cell a).task = (u.cell a).task := by
      rw [Store.setProgress_cell]
      split <;> rfl
    rw [← htask]
    refine hvalue v t rfl later (hext.trans hlater (Nat.le_refl _)) W _ a (hW.setProgress a _)
      (hcoupled.setProgress hza (by rintro ⟨⟩) (by rintro w ⟨⟩)) ?_
      (hcoupled.within_start hza hpending _) hza
    -- what is running in the replay is the cell itself, or was running before
    intro c d w hcd hd hc hw
    rcases Store.setProgress_running_iff.1 hd with ⟨rfl, -⟩ | hd
    · rw [hcoupled.injective hcd hza, hrunning] at hw
      cases hw
    · exact hidle hcd hd (by simpa using hc) (hext.finished c hc w hw)
  | error e t =>
    cases hu
    obtain ⟨hwf, hgrows⟩ := hkept
    exact hsettled t (hgrows.running_start hz) _ (ho t rfl) (by rintro w ⟨⟩)
  | exhausted => cases hu

namespace RefinesByNeed

variable {carryOut : (c : Call) → Store → Outcome c.Reply}
  {owns : Option CellId → Call → Store → Prop} (h : ev.RefinesByNeed old own carryOut owns)
  (owner : Option CellId)

include h

theorem invariant :
    Program.Invariant carryOut (owns owner) (ev.Replayable old own) where
  sealed hs hJ := hJ.weaken hs.base_le
  access := Replayable.access
  call hs hc := h.keeps hs hc

/-- Calls are answered as by the other evaluation. -/
theorem coupling (later : Store) {final s₀ t₀ : Store} {W₀ : Pairing} (hold : old ≤ s₀.cells.size)
    (hwithin : Within own owner s₀ W₀ t₀) (hidle : Idle final W₀ t₀) :
    Coupling carryOut (ev.carryOutFreely .byNeed) final later (fun c => own c = owner)
      (fun c s => owns owner c s ∧ ev.Replayable old own s.records.size s)
      (fun s W t => s₀.cells.size ≤ s.cells.size ∧ Coupled old own later W t ∧
        Frame own (fun c => own c = owner ∧ c < s.cells.size) W₀ t₀ W t) where
  promised := h.promised
  monotone := ev.carryOutFreely_monotone .byNeed
  same := by
    rintro s s' t t' p p' hs ht hle hp ⟨hsize, hcoupled, hframe⟩
    rw [hs]
    exact ⟨hsize, hcoupled.same ht hle hp, hframe.same ht hle hp⟩
  newCell := by
    rintro s t p c d hmine hfinished hcd ⟨hsize, hcoupled, hframe⟩
    have hwithin' := hwithin.frame hframe hsize
    have hrunning : d.progress ≠ .running := by
      intro hd
      rw [hd] at hcd
      generalize c.progress = x at hcd
      cases hcd
    have hsize' : s.cells.size < (s.cells.push c).size := by simp
    refine ⟨Nat.le_of_lt (Nat.lt_of_le_of_lt hsize hsize'), ?_, ?_⟩
    · refine hcoupled.newCell (Nat.le_trans hold hsize) ?_ ?_ hfinished hcd
      · exact fun x hx => Nat.lt_irrefl _ (hwithin'.fresh hx hmine)
      · exact fun hy => hwithin'.busy (hmine.symm.trans hy)
    · refine (hframe.mono ?_).newCell ⟨hmine, hsize'⟩ hrunning
      exact fun x hx => ⟨hx.1, Nat.lt_trans hx.2 hsize'⟩
  answers := by
    rintro c s u reply hs hc ⟨howns, hreplayable⟩ hreply hfinal hlater W t d hW hcd
      ⟨hsize, hcoupled, hframe⟩
    have hkept := h.promised c s hs hc
    rw [hreply] at hkept
    obtain ⟨-, hgrows, hanswer⟩ := hkept
    have hsu : s.cells.size ≤ u.cells.size := hgrows.covers.cells
    have hframe' : Frame own (fun c => own c = owner ∧ c < u.cells.size) W₀ t₀ W t :=
      hframe.mono fun x hx => ⟨hx.1, Nat.lt_of_lt_of_le hx.2 hsu⟩
    have hidle' : Idle u W t := Idle.earlier (Idle.frame hidle hframe) hfinal
    cases hcd with
    | perform hkl =>
      obtain ⟨W', t', w, hW', hcoupled', hnext, hvw, heventually⟩ :=
        h.value hs hc howns hreplayable (Nat.le_trans hold hsize) hreply hlater hW hcoupled
          (hwithin.frame hframe hsize) hidle' hkl
      exact ⟨W', t', w, hnext.le, hvw, hW',
        ⟨Nat.le_trans hsize hsu, hcoupled', hframe'.trans hnext⟩, heventually⟩
    | @force z a hza =>
      have hkeeps := h.keeps hs hc howns hreplayable (t := u) (by rw [hreply]; rfl)
      have hz : z < u.cells.size := Nat.lt_of_lt_of_le hc hsu
      obtain ⟨W', t', w, hW', hcoupled', hnext, hvw, heventually⟩ :=
        hkeeps z reply (hcoupled.recent hza) hz hanswer.2.1 later hlater W t a hW hcoupled hidle'
          hza
      exact ⟨W', t', w, hnext.le, hvw, hW', ⟨Nat.le_trans hsize hsu, hcoupled',
        hframe'.trans (hnext.mono fun _ hx => hx.elim)⟩, heventually⟩

section Run

variable {α : Type} {owner} {P : Nat → Store → α → Prop} {x : Program α} {s : Store}
  (hs : s.WellFormed s.records.size) (hx : x.Ensures s.records.size s P)
  (hreplayable : ev.Replayable old own s.records.size s)
  (halong : x.Along carryOut (fun c => own c = owner) (owns owner) s)

include hs hx hreplayable halong

theorem along : x.Along carryOut (fun c => own c = owner)
    (fun c s => owns owner c s ∧ ev.Replayable old own s.records.size s) s :=
  (h.invariant owner).along h.promised hs (hx hs) halong hreplayable

/-- Finished cells are replayable when a run has ended. -/
theorem run_keeps {u : Store} (hu : (x.run carryOut s).store? = some u) :
    ev.Replayable old own u.records.size u :=
  (h.invariant owner).run h.promised hs (hx hs) halong hreplayable hu

end Run

/-- A value is what the other run gives. -/
theorem run_value {owner : Option CellId} {x y : Program Value} {W : Pairing} {s t : Store}
    (hs : s.WellFormed s.records.size) (hx : x.GivesValue s.records.size s)
    (hreplayable : ev.Replayable old own s.records.size s)
    (halong : x.Along carryOut (fun c => own c = owner) (owns owner) s)
    (hold : old ≤ s.cells.size) (hxy : x.GivesAlike y t.records.size (W.upto s)) {v : Value}
    {u : Store} (hrun : x.run carryOut s = .value v u) {later : Store}
    (hu : u.Extends u.records.size later) (hW : later.Alike W t)
    (hcoupled : Coupled old own later W t) (hwithin : Within own owner s W t)
    (hidle : Idle u W t) :
    EndsCoupled old own later (fun c => own c = owner ∧ c < u.cells.size) W t v
      fun n => y.run (ev.carryOutFreely .byNeed n) t := by
  have hcoupling := h.coupling owner later hold hwithin hidle
  obtain ⟨w, base, q, W', t', hvw, hq, hle, hW', ⟨-, hcoupled', hframe⟩, heventually⟩ :=
    hcoupling.run_value hs hx (h.along hs hx hreplayable halong) hxy hW
      ⟨Nat.le_refl _, hcoupled, .refl _ _ W t⟩ (.refl _ u) hu hrun
  exact ⟨W', t', w, hW', hcoupled', hframe, hvw.mono hq, heventually⟩

end RefinesByNeed

section Round

variable {fuel depth : Nat} (hev : ev.registry.types = [])
  (ih : ∀ depth, ev.RefinesByNeed old own (ev.carryOut fuel depth) (ev.Owns own fuel depth))
  {owner : Option CellId} {s : Store} (hs : s.WellFormed s.records.size)
  (hreplayable : ev.Replayable old own s.records.size s)

include hev ih hs hreplayable

/-- A cell that is computed is replayed by computing its counterpart. -/
theorem force_keeps_replayable {z : CellId} {t : Store} (hz : z < s.cells.size)
    (howns : ev.Owns own (fuel + 1) depth owner (.force z) s)
    (ht : (ev.carryOut (fuel + 1) depth (.force z) s).store? = some t) :
    ev.Replayable old own t.records.size t := by
  have hr : ev.registry.Sound := Registry.sound_of_types_eq_nil hev
  cases hprogress : (s.cell z).progress with
  | finished v =>
    rw [carryOut_force_finished ev fuel depth hprogress] at ht
    cases ht
    exact hreplayable
  | running =>
    rw [carryOut_force_running ev fuel depth hprogress] at ht
    cases ht
    exact hreplayable
  | pending =>
    rw [carryOut_force_pending ev fuel depth hprogress] at ht
    have hstart := hs.start hprogress
    have hext := s.start_extends s.records.size hprogress
    have htask := hs.task_valid hz
    have hbegun := hreplayable.start hprogress
    have hpromised := carryOut_promised hr fuel depth (.perform (s.cell z).task) _ hstart htask
    refine Replayable.settle hz hpromised
      (fun u => (ih depth).keeps hstart htask (howns hprogress) hbegun) ?_ ht
    intro v u hu later hlater W t' a hW hcoupled hidle hwithin hza
    have hsu : s.Extends s.records.size later := by
      have hgrows := (hu ▸ hpromised : Outcome.Kept _ _ (.value v u)).2.1
      exact hext.trans (hgrows.toExtends.trans hlater hgrows.covers.records) (Nat.le_refl _)
    obtain ⟨-, -, htasks, -, -⟩ := hW.cell hza
    rw [hsu.task z hz] at htasks
    have hsize : old ≤ (s.setProgress z .running).cells.size := by
      simpa using Nat.le_of_lt (Nat.lt_of_le_of_lt (hcoupled.recent hza) hz)
    exact ((ih depth).value hstart htask (howns hprogress) hbegun hsize hu hlater hW
      hcoupled hwithin hidle htasks).mono fun _ hx => hx.1

theorem carryOut_keeps_replayable {c : Call} {t : Store} (hc : c.Valid s)
    (howns : ev.Owns own (fuel + 1) depth owner c s)
    (ht : (ev.carryOut (fuel + 1) depth c s).store? = some t) :
    ev.Replayable old own t.records.size t := by
  have hr : ev.registry.Sound := Registry.sound_of_types_eq_nil hev
  cases c with
  | perform k =>
    have hgives : (ev.taskProgram k).GivesValue s.records.size s := taskProgram_givesValue hr hc
    cases k with
    | evaluate e scope path =>
      rcases Nat.lt_or_ge depth ev.maxDepth with hdepth | hdepth
      · rw [carryOut_evaluate ev fuel s hdepth] at ht
        exact (ih (depth + 1)).run_keeps hs hgives hreplayable (howns hdepth)
          ((Outcome.store?_through _ _).symm.trans ht)
      · rw [carryOut_evaluate_deep ev fuel s hdepth] at ht
        cases ht
        exact hreplayable
    | element initializer index path location =>
      rw [carryOut_element] at ht
      exact (ih depth).run_keeps hs hgives hreplayable howns
        ((Outcome.store?_through _ _).symm.trans ht)
    | constant v =>
      cases ht
      exact hreplayable
  | force z => exact force_keeps_replayable hev ih hs hreplayable hc howns ht
  | render spec v =>
    exact (ih depth).run_keeps hs (Render.value_ensures spec hc) hreplayable howns ht
  | tie work visited =>
    exact (ih depth).run_keeps hs (Network.tieStep_ensures hc) hreplayable howns ht

/-- What a task computes is what a task that is alike computes later, where nothing that is
    finished has to be computed again. -/
theorem perform_replays {k l : Task} {u later t : Store} {v : Value} {W : Pairing}
    (hk : k.Valid s) (howns : ev.Owns own (fuel + 1) depth owner (.perform k) s)
    (hold : old ≤ s.cells.size) (hrun : ev.carryOut (fuel + 1) depth (.perform k) s = .value v u)
    (hu : u.Extends u.records.size later) (hW : later.Alike W t)
    (hcoupled : Coupled old own later W t) (hwithin : Within own owner s W t)
    (hidle : Idle u W t) (hkl : k.Alike W l) :
    EndsCoupled old own later (fun c => own c = owner ∧ c < u.cells.size) W t v
      fun n => ev.carryOutFreely .byNeed n (.perform l) t := by
  have hr : ev.registry.Sound := Registry.sound_of_types_eq_nil hev
  have hgives : (ev.taskProgram k).GivesValue s.records.size s := taskProgram_givesValue hr hk
  have halike : (ev.taskProgram k).GivesAlike (ev.taskProgram l) t.records.size (W.upto s) :=
    taskProgram_givesAlike hev (hkl.upto hk)
  cases hkl with
  | evaluate e hscope path =>
    rcases Nat.lt_or_ge depth ev.maxDepth with hdepth | hdepth
    · rw [carryOut_evaluate ev fuel s hdepth] at hrun
      refine ((ih (depth + 1)).run_value hs hgives hreplayable (howns hdepth) hold halike
        (Outcome.through_eq_value hrun) hu hW hcoupled hwithin hidle).step fun n w t' h => ?_
      exact (ev.carryOutFreely_evaluate .byNeed n t e _ path).trans (by rw [h]; rfl)
    · rw [carryOut_evaluate_deep ev fuel s hdepth] at hrun
      cases hrun
  | element hfun hindex path location =>
    rw [carryOut_element] at hrun
    refine ((ih depth).run_value hs hgives hreplayable howns hold halike
      (Outcome.through_eq_value hrun) hu hW hcoupled hwithin hidle).step fun n w t' h => ?_
    exact (ev.carryOutFreely_element .byNeed n t _ _ path location).trans (by rw [h]; rfl)
  | @constant _ w hvw =>
    rw [carryOut_constant] at hrun
    cases hrun
    exact ⟨W, t, w, hW, hcoupled, .refl _ _ W t, hvw,
      Outcome.Eventually.congr ⟨0, fun _ _ => rfl⟩
        fun n => ev.carryOutFreely_constant .byNeed n t w⟩

end Round

/-- With any fuel and at any depth, what calls compute can be replayed. -/
theorem carryOut_refinesByNeed (hev : ev.registry.types = []) (fuel depth : Nat) :
    ev.RefinesByNeed old own (ev.carryOut fuel depth) (ev.Owns own fuel depth) := by
  have hpromised := carryOut_promised (Registry.sound_of_types_eq_nil hev)
  induction fuel generalizing depth with
  | zero =>
    refine ⟨hpromised 0 depth, fun _ _ _ _ ht => ?_, fun _ _ _ _ _ ht => ?_⟩
    · rw [carryOut_zero] at ht
      cases ht
    · rw [carryOut_zero] at ht
      cases ht
  | succ fuel ih =>
    refine ⟨hpromised (fuel + 1) depth, fun hs hc howns hreplayable ht => ?_,
      fun hs hk howns hreplayable hold hrun _ _ _ _ hu hW hcoupled hwithin hidle hkl => ?_⟩
    · exact carryOut_keeps_replayable hev ih hs hreplayable hc howns ht
    · exact perform_replays hev ih hs hreplayable hk howns hold hrun hu hW hcoupled hwithin hidle
        hkl

end Evaluator

end NetDesc
