import NetDesc.Proofs.Cells.LifeCycle
import NetDesc.Proofs.Format.Contents
import NetDesc.Proofs.Run.Fuel

namespace NetDesc

open Relation (ReflTransGen)

namespace Store

/-- The text is that of a value of which everything has been computed, up to nodes and networks,
    which may be named or tied together after they were shown. -/
structure Shows (s : Store) (spec : FormatSpec) (n : Nat) (v : Value) (text : String) : Prop where
  resolved : s.Resolved n v
  text_eq : (∀ u, ReflTransGen s.HasPart v u → ¬u.IsGraph) → text = s.textOf spec n v

/-- The text is that of what the cell holds. -/
def ShowsPart (s : Store) (spec : FormatSpec) (n : Nat) (c : CellId) (text : String) : Prop :=
  ∃ u, (s.cell c).progress = .finished u ∧ s.Shows spec n u text

variable {s t : Store} {spec : FormatSpec} {n : Nat} {v : Value} {text : String}

theorem Shows.later (h : s.Shows spec n v text) (hst : s.Extends s.records.size t)
    (hs : s.WellFormed s.records.size) (hv : v.Valid s) : t.Shows spec n v text where
  resolved := h.resolved.later hst hs hv
  text_eq hplain := by
    have hplain' (u) (hu : ReflTransGen s.HasPart v u) : ¬u.IsGraph :=
      hplain u (inside_later hst hs hu hv)
    rw [h.text_eq hplain', h.resolved.textOf_later hst hs hv hplain']

theorem ShowsPart.later {c : CellId} (h : s.ShowsPart spec n c text)
    (hst : s.Extends s.records.size t) (hs : s.WellFormed s.records.size)
    (hc : c < s.cells.size) : t.ShowsPart spec n c text := by
  obtain ⟨u, hu, hshows⟩ := h
  exact ⟨u, hst.finished c hc u hu, hshows.later hst hs ((hs.cell c hc).value u hu)⟩

/-- Values that have been computed and shown are parts that are shown. -/
theorem showsPart_of_finished {cells : List CellId} {values : List Value} {texts : List String}
    (hvalues : List.Forall₂ (fun c v => (s.cell c).progress = .finished v) cells values)
    (htexts : List.Forall₂ (s.Shows spec n) values texts) :
    List.Forall₂ (s.ShowsPart spec n) cells texts := by
  induction hvalues generalizing texts with
  | nil =>
    cases htexts
    exact .nil
  | cons hv _ ih =>
    cases htexts with
    | cons hshows hrest => exact .cons ⟨_, hv, hshows⟩ (ih hrest)

section Parts

variable {texts : List String} (h : List.Forall₂ (s.ShowsPart spec n) (s.parts v) texts)

include h

/-- A value is resolved if all its parts are shown. -/
theorem resolved_of_showsPart : s.Resolved (n + 1) v := by
  have hpart : List.Forall₂ (fun c text => (∃ text, s.ShowsPart spec n c text) ∧
      s.ShowsPart spec n c text) (s.parts v) texts := h.imp fun c text h => ⟨⟨text, h⟩, h⟩
  intro c hc
  obtain ⟨text, u, hu, hshows⟩ := (List.forall₂_and_left _ _).1 hpart |>.1 c hc
  exact ⟨u, hu, hshows.resolved⟩

/-- The texts of the parts are those of what the cells hold. -/
theorem eq_map_heldText (hplain : ∀ u, ReflTransGen s.HasPart v u → ¬u.IsGraph) :
    texts = (s.parts v).map (s.heldText (s.textOf spec n)) := by
  have heach (c : CellId) (text : String)
      (h : c ∈ s.parts v ∧ s.ShowsPart spec n c text) :
      s.heldText (s.textOf spec n) c = text := by
    obtain ⟨hc, u, hu, hshows⟩ := h
    rw [heldText_finished hu]
    exact (hshows.text_eq fun w hw => hplain w (.head ⟨c, hc, hu⟩ hw)).symm
  have hall := (List.forall₂_and_left (s.parts v) texts).2 ⟨fun c hc => hc, h⟩
  rw [eq_comm, ← List.forall₂_eq_eq_eq, List.forall₂_map_left_iff]
  exact hall.imp heach

end Parts

end Store

namespace Program

variable {α : Type} {carryOut : (c : Call) → Store → Outcome c.Reply} {s t : Store}

theorem Promised.answer (hcalls : Promised carryOut) (c : Call) (hs : s.WellFormed s.records.size)
    (hc : c.Valid s) {reply : c.Reply} (h : carryOut c s = .value reply t) :
    t.WellFormed t.records.size ∧ s.Grows s.records.size t ∧ c.Answered s t reply := by
  have hkept := hcalls c s hs hc
  rwa [h] at hkept

theorem Ensures.run_value {P : Store → α → Prop} {p : Program α} {a : α}
    (hp : p.Ensures s.records.size s fun _ t a => P t a) (hcalls : Promised carryOut)
    (hs : s.WellFormed s.records.size) (h : p.run carryOut s = .value a t) :
    t.WellFormed t.records.size ∧ s.Grows s.records.size t ∧ P t a := by
  have hkept := hp.run hcalls hs
  rwa [h] at hkept

theorem run_force_bind {c : CellId} {v : Value} (h : carryOut (.force c) s = .value v t)
    (f : Value → Program α) : (force c >>= f).run carryOut s = (f v).run carryOut t := by
  have hforce : (force c).run carryOut s = .value v t := (run_call carryOut (.force c) s).trans h
  rw [run_bind, hforce]
  rfl

theorem run_render_bind {spec : FormatSpec} {v : Value} {text : String}
    (h : carryOut (.render spec v) s = .value text t) (f : String → Program α) :
    (render spec v >>= f).run carryOut s = (f text).run carryOut t := by
  have hrender : (render spec v).run carryOut s = .value text t :=
    (run_call carryOut (.render spec v) s).trans h
  rw [run_bind, hrender]
  rfl

end Program

namespace Render

variable {carryOut : (c : Call) → Store → Outcome c.Reply} {spec : FormatSpec} {n : Nat}
  {s t : Store} {texts : List String}

/-- The line of a member. -/
def line (p : String × Member) (text : String) : String :=
  s!"{p.1} = {text}"

section Settles

variable (hcalls : Program.Promised carryOut)
  (hrender : ∀ (s : Store) (v : Value) (text : String) (t : Store), s.WellFormed s.records.size →
    v.Valid s → carryOut (.render spec v) s = .value text t → t.Shows spec n v text)

include hcalls hrender

/-- Each line shows what the cell of its member holds in the end. -/
theorem members_settle {named : List (String × Member)} {found : Array String}
    (hs : s.WellFormed s.records.size) (hnamed : ∀ p ∈ named, p.2.cell < s.cells.size)
    (hrun : (members spec found named).run carryOut s = .value texts t) :
    ∃ shown, texts = found.toList ++ List.zipWith line named shown ∧
      List.Forall₂ (fun p text => t.ShowsPart spec n p.2.cell text) named shown := by
  induction named generalizing found s with
  | nil =>
    cases hrun
    exact ⟨[], by simp, .nil⟩
  | cons p named ih =>
    obtain ⟨name, m⟩ := p
    have hcell : m.cell < s.cells.size := hnamed (name, m) (by simp)
    rw [members, Program.run_bind] at hrun
    obtain ⟨u, s₁, hforce, hrun⟩ := Outcome.bind_eq_value hrun
    replace hforce := (Program.run_call carryOut (.force m.cell) s).symm.trans hforce
    obtain ⟨hs₁, hgrows₁, hu, hfinished, -⟩ := hcalls.answer (.force m.cell) hs hcell hforce
    rw [Program.run_bind] at hrun
    obtain ⟨text, s₂, htext, hrun⟩ := Outcome.bind_eq_value hrun
    replace htext := (Program.run_call carryOut (.render spec u) s₁).symm.trans htext
    obtain ⟨hs₂, hgrows₂, -⟩ := hcalls.answer (.render spec u) hs₁ hu htext
    have hcell₁ : m.cell < s₁.cells.size := Nat.lt_of_lt_of_le hcell hgrows₁.covers.cells
    have hcell₂ : m.cell < s₂.cells.size := Nat.lt_of_lt_of_le hcell₁ hgrows₂.covers.cells
    have hpart : s₂.ShowsPart spec n m.cell text :=
      ⟨u, hgrows₂.finished m.cell hcell₁ u hfinished, hrender s₁ u text s₂ hs₁ hu htext⟩
    have hnamed₂ : ∀ q ∈ named, q.2.cell < s₂.cells.size := fun q hq =>
      Nat.lt_of_lt_of_le (hnamed q (List.mem_cons_of_mem _ hq))
        (hgrows₁.covers.trans hgrows₂.covers).cells
    have hrest := (members_ensures spec _ hnamed₂).run_value hcalls hs₂ hrun
    obtain ⟨shown, rfl, hshown⟩ := ih hs₂ hnamed₂ hrun
    refine ⟨text :: shown, by simp [line], .cons ?_ hshown⟩
    exact hpart.later hrest.2.1.toExtends hs₂ hcell₂

/-- Each text shows one of the values. -/
theorem elements_settle {values : List Value} {found : Array String}
    (hs : s.WellFormed s.records.size) (hvalues : ∀ v ∈ values, v.Valid s)
    (hrun : (elements spec found values).run carryOut s = .value texts t) :
    ∃ shown, texts = found.toList ++ shown ∧
      List.Forall₂ (t.Shows spec n) values shown := by
  induction values generalizing found s with
  | nil =>
    cases hrun
    exact ⟨[], by simp, .nil⟩
  | cons v values ih =>
    have hv : v.Valid s := hvalues v (by simp)
    rw [elements, Program.run_bind] at hrun
    obtain ⟨text, s₁, htext, hrun⟩ := Outcome.bind_eq_value hrun
    replace htext := (Program.run_call carryOut (.render spec v) s).symm.trans htext
    obtain ⟨hs₁, hgrows, -⟩ := hcalls.answer (.render spec v) hs hv htext
    have hvalues₁ : ∀ w ∈ values, w.Valid s₁ := fun w hw =>
      (hvalues w (List.mem_cons_of_mem _ hw)).mono hgrows.covers
    have hrest := (elements_ensures spec _ hvalues₁).run_value hcalls hs₁ hrun
    obtain ⟨shown, rfl, hshown⟩ := ih hs₁ hvalues₁ hrun
    refine ⟨text :: shown, by simp, .cons ?_ hshown⟩
    exact (hrender s v text s₁ hs hv htext).later hrest.2.1.toExtends hs₁ (hv.mono hgrows.covers)

theorem record_settles {v : Value} {id : RecordId} (hs : s.WellFormed s.records.size)
    (hid : v.payload = .record id) (hsame : t.record id = s.record id)
    (hrun : (members spec #[] (s.record id).members.toList).run carryOut s = .value texts t) :
    t.Shows spec (n + 1) v (Layout.nest (lines texts) '[' true ']') := by
  have hnamed : ∀ p ∈ (s.record id).members.toList, p.2.cell < s.cells.size := fun p hp =>
    (hs.record_valid id).members p (Array.mem_toList_iff.1 hp)
  obtain ⟨shown, rfl, hshown⟩ := members_settle hcalls hrender hs hnamed hrun
  rw [← hsame] at hshown
  have hparts : List.Forall₂ (t.ShowsPart spec n) (t.parts v) shown := by
    rw [Store.parts_record hid, List.forall₂_map_left_iff]
    exact hshown
  refine ⟨Store.resolved_of_showsPart hparts, fun hplain => ?_⟩
  rw [Store.eq_map_heldText hparts hplain, Store.parts_record hid, List.map_map, ← hsame,
    List.zipWith_map_right, List.zipWith_self, Store.textOf, hid]
  rfl

theorem array_settles {v : Value} {a : LazyArray} {values : List Value} {s₁ : Store}
    (hs : s.WellFormed s.records.size) (hv : v.Valid s) (ha : v.payload = .array a)
    (hforced : (Program.forceAll a.cells.toList).run carryOut s = .value values s₁)
    (hrun : (elements spec #[] values).run carryOut s₁ = .value texts t) :
    t.Shows spec (n + 1) v (Layout.nest (lines texts) '(' false ')') := by
  have hcells : ∀ c ∈ a.cells.toList, c < s.cells.size := by
    rw [← Store.parts_array ha]
    exact hs.parts_lt hv
  obtain ⟨hs₁, hgrows₁, -, hvalues⟩ :=
    (Program.forceAll_ensures hcells).run_value hcalls hs hforced
  have hvalid := (Program.forceAll_valid hcells).run_value hcalls hs hforced |>.2.2
  have hgrows := (elements_ensures spec #[] hvalid).run_value hcalls hs₁ hrun |>.2.1
  obtain ⟨_, rfl, hshown⟩ := elements_settle hcalls hrender hs₁ hvalid hrun
  have hparts : List.Forall₂ (t.ShowsPart spec n) (t.parts v) texts := by
    rw [Store.parts_array ha]
    refine Store.showsPart_of_finished ?_ hshown
    refine ((List.forall₂_and_left _ _).2 ⟨hcells, hvalues⟩).imp fun c w h => ?_
    exact hgrows.finished c (Nat.lt_of_lt_of_le h.1 hgrows₁.covers.cells) w h.2.2
  refine ⟨Store.resolved_of_showsPart hparts, fun hplain => ?_⟩
  rw [Store.eq_map_heldText hparts hplain, Store.parts_array ha, Store.textOf, ha]

/-- Rendering a value computes everything inside. -/
theorem value_settles {v : Value} {text : String} (hs : s.WellFormed s.records.size)
    (hv : v.Valid s) (hrun : (value spec v).run carryOut s = .value text t) :
    t.Shows spec (n + 1) v text := by
  have hscalar (hparts : t.parts v = []) (htext : text = t.textOf spec (n + 1) v) :
      t.Shows spec (n + 1) v text :=
    ⟨fun c hc => absurd (hparts ▸ hc) List.not_mem_nil, fun _ => htext⟩
  have hkept := (value_ensures spec hv).run_value hcalls hs hrun
  rw [value] at hrun
  split at hrun
  · next x hx =>
    cases hrun
    exact hscalar (by rw [Store.parts, hx]) (by rw [Store.textOf, hx])
  · next x hx =>
    cases hrun
    exact hscalar (by rw [Store.parts, hx]) (by rw [Store.textOf, hx])
  · next x hx =>
    cases hrun
    exact hscalar (by rw [Store.parts, hx]) (by rw [Store.textOf, hx])
  · next id hid =>
    have hlt : id < s.records.size := by simpa [Value.Valid, hid, Payload.Valid] using hv
    change ((members spec #[] (s.record id).members.toList) >>= _).run _ s = _ at hrun
    rw [Program.run_bind] at hrun
    obtain ⟨texts, t', hmembers, htext⟩ := Outcome.bind_eq_value hrun
    cases htext
    exact record_settles hcalls hrender hs hid (hkept.2.1.record id hlt) hmembers
  · next a ha =>
    rw [Program.run_bind] at hrun
    obtain ⟨values, s₁, hforced, hrun⟩ := Outcome.bind_eq_value hrun
    rw [Program.run_bind] at hrun
    obtain ⟨texts, t', helements, htext⟩ := Outcome.bind_eq_value hrun
    cases htext
    exact array_settles hcalls hrender hs hv ha hforced helements
  · next f hf =>
    cases hrun
    exact hscalar (by rw [Store.parts, hf]) (by rw [Store.textOf, hf])
  · next o ho =>
    cases hrun
    exact hscalar (by rw [Store.parts, ho]) (by rw [Store.textOf, ho])

end Settles

section Resolved

variable {text : Value → String}

/-- Nothing is computed to give the text of what the cell holds. -/
def Settled (carryOut : (c : Call) → Store → Outcome c.Reply) (spec : FormatSpec)
    (text : Value → String) (s : Store) (c : CellId) : Prop :=
  ∃ u, (s.cell c).progress = .finished u ∧ carryOut (.force c) s = .value u s ∧
    carryOut (.render spec u) s = .value (text u) s

theorem run_members_settled {named : List (String × Member)} {found : Array String}
    (h : ∀ p ∈ named, Settled carryOut spec text s p.2.cell) :
    (members spec found named).run carryOut s =
      .value (found.toList ++ named.map fun p => line p (s.heldText text p.2.cell)) s := by
  induction named generalizing found with
  | nil => simp [members, Program.run, pure]
  | cons p named ih =>
    obtain ⟨name, m⟩ := p
    obtain ⟨⟨u, hu, hforce, hrender⟩, hrest⟩ := List.forall_mem_cons.1 h
    rw [members, Program.run_force_bind hforce, Program.run_render_bind hrender, ih hrest]
    simp [line, Store.heldText_finished hu]

theorem run_elements_settled {values : List Value} {found : Array String}
    (h : ∀ v ∈ values, carryOut (.render spec v) s = .value (text v) s) :
    (elements spec found values).run carryOut s = .value (found.toList ++ values.map text) s := by
  induction values generalizing found with
  | nil => simp [elements, Program.run, pure]
  | cons v values ih =>
    obtain ⟨hrender, hrest⟩ := List.forall_mem_cons.1 h
    rw [elements, Program.run_render_bind hrender, ih hrest]
    simp

theorem run_forceAll_settled {cells : List CellId}
    (h : ∀ c ∈ cells, Settled carryOut spec text s c) :
    ∃ values, (Program.forceAll cells).run carryOut s = .value values s ∧
      values.map text = cells.map (s.heldText text) ∧
      ∀ v ∈ values, carryOut (.render spec v) s = .value (text v) s := by
  induction cells with
  | nil => exact ⟨[], rfl, rfl, nofun⟩
  | cons c cells ih =>
    obtain ⟨⟨u, hu, hforce, hrender⟩, hrest⟩ := List.forall_mem_cons.1 h
    obtain ⟨values, hvalues, htexts, hrenders⟩ := ih hrest
    refine ⟨u :: values, ?_, ?_, List.forall_mem_cons.2 ⟨hrender, hrenders⟩⟩
    · rw [Program.forceAll] at hvalues ⊢
      rw [List.mapM_cons, Program.run_force_bind hforce, Program.run_bind, hvalues]
      rfl
    · rw [List.map_cons, List.map_cons, htexts, Store.heldText_finished hu]

end Resolved

end Render

namespace Evaluator

variable {ev : Evaluator} {spec : FormatSpec} {n depth : Nat} {s t : Store} {v : Value}
  {text : String}

/-- A text comes once everything inside of the value has been computed. -/
theorem carryOut_render_shows (hr : ev.registry.Sound) (hs : s.WellFormed s.records.size)
    (hv : v.Valid s) (h : ev.carryOut n depth (.render spec v) s = .value text t) :
    t.Shows spec n v text := by
  induction n generalizing v s t text with
  | zero =>
    rw [carryOut_zero] at h
    cases h
  | succ n ih =>
    exact Render.value_settles (carryOut_promised hr n depth) (fun _ _ _ _ hs hv h => ih hs hv h)
      hs hv h

/-- The text of a resolved value is read off the store, which stays as it is. -/
theorem carryOut_render_resolved (h : s.Resolved n v) :
    ev.carryOut n depth (.render spec v) s = .value (s.textOf spec n v) s := by
  induction n generalizing v with
  | zero => exact h.elim
  | succ n ih =>
    have hsettled : ∀ c ∈ s.parts v,
        Render.Settled (ev.carryOut n depth) spec (s.textOf spec n) s c := by
      intro c hc
      obtain ⟨u, hu, hresolved⟩ := h c hc
      refine ⟨u, hu, ?_, ih hresolved⟩
      cases n with
      | zero => exact hresolved.elim
      | succ n => exact carryOut_force_finished ev n depth hu
    change (Render.value spec v).run (ev.carryOut n depth) s = _
    rw [Render.value, Store.textOf]
    cases hv : v.payload with
    | record id =>
      rw [Store.parts_record hv, List.forall_mem_map] at hsettled
      change ((Render.members spec #[] (s.record id).members.toList) >>= _).run _ s = _
      rw [Program.run_bind, Render.run_members_settled hsettled]
      rfl
    | array a =>
      rw [Store.parts_array hv] at hsettled
      obtain ⟨values, hvalues, htexts, hrenders⟩ := Render.run_forceAll_settled hsettled
      change ((Program.forceAll a.cells.toList) >>= _).run _ s = _
      rw [Program.run_bind, hvalues]
      change ((Render.elements spec #[] values) >>= _).run _ s = _
      rw [Program.run_bind, Render.run_elements_settled hrenders, htexts]
      rfl
    | _ => rfl

theorem formatValue_eq {how : String} (hspec : FormatSpec.parse how v.location = .ok spec)
    (fuel : Nat) : ev.formatValue fuel v how s = ev.carryOut fuel 0 (.render spec v) s := by
  rw [formatValue, hspec]
  exact Program.run_call _ (.render spec v) s

end Evaluator

namespace Session

variable {registry : Registry} {s t : Store}

/-- A session only comes to well-formed stores. -/
theorem Visits.wellFormed (hregistry : registry.Sound) (h : Visits registry s t)
    (hs : s.WellFormed s.records.size) : t.WellFormed t.records.size := by
  obtain ⟨hproceeds, hev, hp, ht⟩ := h
  have hwf := (hproceeds.keeps hregistry hs).1
  have hsound := hev ▸ hregistry
  exact (Program.Meets.passes (Evaluator.carryOut_promised hsound _ 0)
    (Evaluator.passes_keeps hsound _ 0) hwf (hp hwf) ht).1

/-- Once a value has a text, everything inside of it has been computed. Formatting it again, in any
    format that is accepted, then gives a text and changes nothing at all, and in the same format it
    gives the same text, unless there are nodes or networks in it. Formatting that fails leaves the
    cells that were finished as they were. -/
theorem formatting_settles (hs : Visits .standard {} s) {v : Value} (hv : v.Valid s)
    {ev : Evaluator} (hev : ev.registry = .standard) (fuel : Nat) (how : String) :
    (∀ text t, ev.formatValue fuel v how s = .value text t →
      (∀ u, ReflTransGen t.HasPart v u →
        ∀ c ∈ t.parts u, c < t.cells.size ∧ (t.cell c).isFinished) ∧
      ∀ (ev' : Evaluator) (how' : String) (spec : FormatSpec),
        FormatSpec.parse how' v.location = .ok spec →
          ∃ text', (∀ fuel' ≥ fuel, ev'.formatValue fuel' v how' t = .value text' t) ∧
            (how' = how → (∀ u, ReflTransGen t.HasPart v u → ¬u.IsGraph) → text' = text)) ∧
      ∀ e t, ev.formatValue fuel v how s = .error e t →
        ∀ c < s.cells.size, (s.cell c).isFinished → t.cell c = s.cell c := by
  have hsound : ev.registry.Sound := hev ▸ Registry.standard_sound
  have hwf := hs.wellFormed Registry.standard_sound Store.wellFormed_empty
  have hkept : (ev.formatValue fuel v how s).Kept s fun _ _ => True :=
    Program.Ensures.run (Evaluator.carryOut_promised hsound fuel 0) hwf
      (.check fun spec _ => Program.render_ensures spec hv)
  refine ⟨fun text t htext => ?_, fun e t herror c hc hfinished => ?_⟩
  · rw [htext] at hkept
    obtain ⟨hwf', hgrows, -⟩ := hkept
    cases hspec : FormatSpec.parse how v.location with
    | error e =>
      rw [Evaluator.formatValue, hspec] at htext
      cases htext
    | ok spec =>
      rw [Evaluator.formatValue_eq hspec] at htext
      have hshows := Evaluator.carryOut_render_shows hsound hwf hv htext
      refine ⟨fun u hu c hc => ⟨?_, hshows.resolved.finished hu c hc⟩,
        fun ev' how' spec' hspec' => ?_⟩
      · exact hwf'.parts_lt (Store.valid_of_inside hwf' (hv.mono hgrows.covers) hu) c hc
      · refine ⟨t.textOf spec' fuel v, fun fuel' hfuel => ?_, fun hhow hplain => ?_⟩
        · have hrender : ev'.carryOut fuel 0 (.render spec' v) t = _ :=
            Evaluator.carryOut_render_resolved hshows.resolved
          have hle := ev'.carryOut_monotone 0 fuel fuel' hfuel (.render spec' v) t
          rw [Evaluator.formatValue_eq hspec']
          rcases hle with hle | hle
          · cases hrender.symm.trans hle
          · exact hle.symm.trans hrender
        · subst hhow
          cases hspec.symm.trans hspec'
          exact (hshows.text_eq hplain).symm
  · rw [herror] at hkept
    exact hkept.2.toExtends.cell_eq hc hfinished

/-- A tree with a string that is computed when it is shown. -/
def greetingExpr : Expr :=
  .ofMembers [.ofName "a" (.ofText "hi")]

/-- The string is computed for the first text. The second one is the same, and nothing changes. -/
theorem formatting_settles_greeting :
    ∃ (s t : Store) (v : Value) (text : String), Visits .standard {} s ∧ v.Valid s ∧
      (s.parts v).map (fun c => (s.cell c).isFinished) = [false] ∧
        ({} : Evaluator).formatValue 9 v "" s = .value text t ∧
          (∀ c ∈ t.parts v, c < t.cells.size ∧ (t.cell c).isFinished) ∧
            ({} : Evaluator).formatValue 9 v "" t = .value text t := by
  let ev : Evaluator := {}
  have hrun : ((ev.evaluateTopLevel 9 greetingExpr {}).value?.bind fun p =>
      (ev.formatValue 9 p.1 "" p.2).value?.map fun q =>
        ((p.2.parts p.1).map fun c => (p.2.cell c).isFinished, q.2.parts p.1, p.1.typeName,
          q.2.heldText Value.typeName 0)) = some ([false], [0], "record", "string") := by
    decide +kernel
  obtain ⟨⟨v, s⟩, hs, hrun⟩ := Option.bind_eq_some_iff.1 hrun
  obtain ⟨⟨text, t⟩, ht, hrun⟩ := Option.map_eq_some_iff.1 hrun
  simp only [Prod.mk.injEq] at hrun
  obtain ⟨hpending, hparts, htype, hheld⟩ := hrun
  replace hs := Outcome.value?_eq_some hs
  replace ht := Outcome.value?_eq_some ht
  have hsound : ev.registry.Sound := Registry.standard_sound
  have hadmissible : (ev.wholeTree greetingExpr).Admissible {} :=
    (ev.wholeTree_givesValue greetingExpr).imp fun _ _ _ _ _ _ _ => trivial
  have hpasses : (ev.wholeTree greetingExpr).Passes (ev.carryOut 9 0) (ev.Passes 9 0) {} s :=
    Program.passes_of_store? (congrArg Outcome.store? hs) fun _ _ _ => Evaluator.passes_of_store?
  have hvisits : Visits .standard {} s := .inside .start rfl hadmissible hpasses
  have hkept : (ev.evaluateTopLevel 9 greetingExpr {}).Kept {} fun t v => v.Valid t :=
    Program.Ensures.run (Evaluator.carryOut_promised hsound 9 0) Store.wellFormed_empty
      (ev.wholeTree_givesValue greetingExpr)
  rw [hs] at hkept
  obtain ⟨-, -, hv⟩ := hkept
  have hregistry : ev.registry = .standard := rfl
  obtain ⟨hfinished, hagain⟩ := (formatting_settles hvisits hv hregistry 9 "").1 text t ht
  have hplain : ∀ u, ReflTransGen t.HasPart v u → ¬u.IsGraph := by
    have hrecord : ¬v.IsGraph := by
      rintro (⟨id, hid⟩ | ⟨id, hid⟩) <;> simp [Value.typeName, hid, Object.typeName] at htype
    have hpart (w : Value) (hw : t.HasPart v w) : ¬w.IsGraph ∧ t.parts w = [] := by
      obtain ⟨c, hc, hw⟩ := hw
      rw [hparts, List.mem_singleton] at hc
      subst hc
      rw [Store.heldText_finished hw] at hheld
      obtain ⟨x, hx⟩ : ∃ x, w.payload = .text x := by
        obtain ⟨payload, location, path⟩ := w
        cases payload with
        | text x => exact ⟨x, rfl⟩
        | object o => cases o <;> simp [Value.typeName, Object.typeName] at hheld
        | _ => simp [Value.typeName] at hheld
      refine ⟨?_, by rw [Store.parts, hx]⟩
      rintro (⟨id, hid⟩ | ⟨id, hid⟩) <;> simp [hx] at hid
    intro u hu
    obtain rfl | ⟨w, hw, hu⟩ := hu.cases_head
    · exact hrecord
    obtain ⟨hgraph, hnone⟩ := hpart w hw
    obtain rfl | ⟨x, ⟨c, hc, -⟩, -⟩ := hu.cases_head
    · exact hgraph
    · rw [hnone] at hc
      cases hc
  obtain ⟨text', htext', hsame⟩ := hagain ev "" {} rfl
  have heq := hsame rfl hplain
  refine ⟨s, t, v, text, hvisits, hv, hpending, ht, hfinished v .refl, ?_⟩
  rw [← heq]
  exact htext' 9 (Nat.le_refl 9)

end Session

end NetDesc
