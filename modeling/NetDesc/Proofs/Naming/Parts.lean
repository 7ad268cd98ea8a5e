import NetDesc.Proofs.Naming.Networks

namespace NetDesc

variable {begun : List Computation} {carryOut : (c : Call) → Store → Outcome c.Reply}
  {inside : Call → Store → List Computation} {w : World} {tier : Tier} {path : String}

namespace Evaluator

/-- Members of a record literal have different names, for others are refused. -/
theorem addMembers_upholds {record : RecordId} (hrecord : w.record record = some tier)
    {members : List Binding}
    (hmembers : ∀ m ∈ members, IsIdentifier m.name.name ∧ m.value.WellNamed)
    (hopen : ∀ m ∈ members, (w.store.record record).contains m.name.name = false →
      w.Open begun tier (joinPath path m.name.name)) :
    (addMembers record path members).Upholds begun carryOut inside w tier (within path)
      fun _ _ => True := by
  induction members generalizing w with
  | nil => exact .pure trivial
  | cons m rest ih =>
    rw [List.forall_mem_cons] at hmembers hopen
    obtain ⟨hname, hvalue⟩ := hmembers.1
    refine .bind_still (Program.readRecord_upholds record) ?_
    rintro w r - - ⟨rfl, rfl⟩
    split
    · exact .raise _
    · next hnew =>
      have hscope : Tier.Reaches (w.record record) tier := ⟨tier, hrecord, List.suffix_refl tier⟩
      refine .bind (Program.suspend_upholds hvalue hscope (joinPath_ne_empty hname.ne_empty)
        (hopen.1 (Bool.eq_false_iff.2 hnew))) hname.partId.region_within ?_
      rintro u cell - hwu ⟨hcell, hrecords⟩
      have hu := hwu.record record tier hrecord
      refine .bind_still (Program.addMember_upholds hu m.name.name hcell) ?_
      intro x _ _ hux hadded
      have hsame : u.store.record record = w.store.record record := by
        simp only [Store.record, hrecords]
      refine ih (hux.record record tier hu) hmembers.2 fun m' hm' hfree => ?_
      rw [hadded, hsame, Record.contains, Record.find?_add] at hfree
      have hne : m'.name.name ≠ m.name.name := by
        intro heq
        simp [heq] at hfree
      rw [if_neg (Ne.symm hne)] at hfree
      have hname' := (hmembers.2 m' hm').1
      exact ((hopen.2 m' hm' hfree).after_part hname'.partId hname.partId (hname'.apart hname hne)
        hwu).later hux (Set.disjoint_empty _)

/-- A default that is put in a list of defaults is the only one of its name. -/
theorem of_mem_putDefault {name : String} {cell : CellId} {found : List (String × CellId)}
    (hnodup : (found.map (·.1)).Nodup) {p : String × CellId} (hp : p ∈ putDefault name cell found) :
    p = (name, cell) ∨ p ∈ found ∧ p.1 ≠ name := by
  induction found with
  | nil => exact .inl (List.mem_singleton.1 hp)
  | cons q rest ih =>
    rw [List.map_cons, List.nodup_cons] at hnodup
    unfold putDefault at hp
    split at hp
    · next heq =>
      refine (List.mem_cons.1 hp).imp_right fun hp => ⟨List.mem_cons_of_mem _ hp, fun hsame => ?_⟩
      exact hnodup.1 (heq.trans hsame.symm ▸ List.mem_map_of_mem hp)
    · next hne =>
      obtain rfl | hp := List.mem_cons.1 hp
      · exact .inr ⟨List.mem_cons_self, hne⟩
      · exact (ih hnodup.2 hp).imp_right fun h => ⟨List.mem_cons_of_mem q h.1, h.2⟩

theorem putDefault_nodup (name : String) (cell : CellId) {found : List (String × CellId)}
    (hnodup : (found.map (·.1)).Nodup) : ((putDefault name cell found).map (·.1)).Nodup := by
  induction found with
  | nil => simp [putDefault]
  | cons q rest ih =>
    rw [List.map_cons, List.nodup_cons] at hnodup
    unfold putDefault
    split
    · next heq => simpa [← heq] using hnodup
    · next hne =>
      rw [List.map_cons, List.nodup_cons]
      refine ⟨fun hmem => ?_, ih hnodup.2⟩
      obtain ⟨p, hp, hsame⟩ := List.mem_map.1 hmem
      obtain rfl | hp := of_mem_putDefault hnodup.2 hp
      · exact hne hsame.symm
      · exact hnodup.1 (hsame ▸ List.mem_map_of_mem hp.1)

/-- Of several defaults of one name the last one counts, and nothing refers to the others. -/
theorem suspendDefaults_upholds {scope : RecordId}
    (hscope : Tier.Reaches (w.record scope) tier) {found : List (String × CellId)}
    {named : List Binding} (hnodup : (found.map (·.1)).Nodup)
    (hnamed : ∀ d ∈ named, IsIdentifier d.name.name ∧ d.value.WellNamed)
    (hopen : ∀ d ∈ named, w.Open begun tier (joinPath path d.name.name))
    (hfound : ∀ p ∈ found, p.1 ∈ named.map (·.name.name) ∨ Tier.Reaches (w.cell p.2) tier) :
    (suspendDefaults scope path found named).Upholds begun carryOut inside w tier (within path)
      fun u defaults => ∀ p ∈ defaults, Tier.Reaches (u.cell p.2) tier := by
  induction named generalizing w found with
  | nil => exact .pure fun p hp => (hfound p hp).resolve_left (by simp)
  | cons d rest ih =>
    rw [List.forall_mem_cons] at hnamed hopen
    obtain ⟨hname, hvalue⟩ := hnamed.1
    -- A default that another one is going to replace holds no names.
    have hcell : (Program.suspend d.value scope (joinPath path d.name.name)).Upholds begun carryOut
        inside w tier (within path) fun u c => (w.Later begun tier (within path) u ∧
          ∀ d' ∈ rest, u.Open begun tier (joinPath path d'.name.name)) ∧
          (d.name.name ∈ rest.map (·.name.name) ∨ Tier.Reaches (u.cell c) tier) := by
      by_cases hlast : d.name.name ∈ rest.map (·.name.name)
      · refine (Program.newCell_upholds _).imp (Set.empty_subset _) fun u c _ hwu _ => ?_
        refine ⟨⟨hwu.nowhere, fun d' hd' => ?_⟩, .inl hlast⟩
        exact (hopen.2 d' hd').later hwu (Set.disjoint_empty _)
      · refine (Program.suspend_upholds hvalue hscope (joinPath_ne_empty hname.ne_empty)
          hopen.1).imp hname.partId.region_within fun u c _ hwu hc => ?_
        refine ⟨⟨hwu.mono hname.partId.region_within, fun d' hd' => ?_⟩, .inr hc.1⟩
        have hname' := (hnamed.2 d' hd').1
        have hne : d'.name.name ≠ d.name.name := fun heq =>
          hlast (heq ▸ List.mem_map_of_mem hd')
        exact (hopen.2 d' hd').after_part hname'.partId hname.partId (hname'.apart hname hne) hwu
    refine .bind hcell subset_rfl ?_
    rintro u c - - ⟨⟨hwu, hopen'⟩, hc⟩
    refine ih (hwu.reaches_record hscope) (putDefault_nodup _ c hnodup) hnamed.2 hopen' ?_
    intro p hp
    obtain rfl | ⟨hp, hne⟩ := of_mem_putDefault hnodup hp
    · exact hc
    · rcases hfound p hp with hmem | hreaches
      · rw [List.map_cons, List.mem_cons] at hmem
        exact .inl (hmem.resolve_left hne)
      · exact .inr (hwu.reaches_cell hreaches)

/-- An index does not come back before all others have been. -/
theorem index_add_ne (index : Int64) {k : Nat} (hk : k + 1 < UInt64.size) :
    index + Int64.ofNat (k + 1) ≠ index := by
  intro h
  have hbits := congrArg BitVec.toNat (congrArg Int64.toBitVec h)
  rw [Int64.toBitVec_add, Int64.toBitVec_ofNat'] at hbits
  simp only [BitVec.toNat_add, BitVec.toNat_ofNat, Int64.toNat_toBitVec] at hbits
  have hlt := index.toBitVec.isLt
  have hsize : UInt64.size = 18446744073709551616 := rfl
  omega

/-- The elements of a comprehension have paths of their own, as long as there is a path. -/
theorem suspendElements_upholds {f : Function} (hf : f.Fits w tier)
    (initLocation location : Location) (hpath : path ≠ "") {found : Array CellId}
    (hfound : ∀ c ∈ found, Tier.Reaches (w.cell c) tier) {remaining : Nat}
    (hremaining : remaining < UInt64.size) {index : Int64}
    (hopen : ∀ k < remaining, w.Open begun tier (elementPath path (index + Int64.ofNat k))) :
    (suspendElements f initLocation location path found remaining index).Upholds begun carryOut
      inside w tier (within path) fun u cells => ∀ c ∈ cells, Tier.Reaches (u.cell c) tier := by
  induction remaining generalizing w found index with
  | zero => exact .pure hfound
  | succ remaining ih =>
    have hfirst : w.Open begun tier (elementPath path index) := by
      simpa using hopen 0 (Nat.succ_pos remaining)
    have htask (v : Value) (hv : v.Fits w tier) :
        (Task.element f v (elementPath path index) initLocation).Fits w tier :=
      ⟨hf, hv, elementPath_ne_empty hpath index⟩
    refine .bind (Program.suspended_upholds initLocation _ (htask _ trivial) hfirst)
      (region_elementPath_within hpath index) ?_
    rintro u c - hwu ⟨hc, -⟩
    refine ih (hf.seen hwu.toExtends.kept) (fun c' hc' => ?_)
      (Nat.lt_of_succ_lt hremaining) fun k hk => ?_
    · obtain hc' | rfl := Array.mem_push.1 hc'
      · exact hwu.reaches_cell (hfound c' hc')
      · exact hc
    · have hindex : index + 1 + Int64.ofNat k = index + Int64.ofNat (k + 1) := by
        rw [Int64.ofNat_add, Int64.add_assoc, Int64.add_comm 1]
        rfl
      rw [hindex]
      refine (hopen (k + 1) (Nat.succ_lt_succ hk)).later hwu ?_
      exact region_elementPath_disjoint hpath (index_add_ne index (by omega))

/-- Where there is no path, nothing may be done with the elements. -/
theorem suspendElements_nowhere (f : Function) (initLocation location : Location) (path : String)
    (found : Array CellId) (remaining : Nat) (index : Int64) :
    (suspendElements f initLocation location path found remaining index).Upholds begun carryOut
      inside w tier ∅ fun _ _ => True := by
  induction remaining generalizing w found index with
  | zero => exact .pure trivial
  | succ remaining ih => exact .bind_still (Program.newCell_upholds _) fun _ _ _ _ _ => ih _ _

section Evaluated

variable (hcalls : CallsUphold begun carryOut inside) {scope : RecordId}
  (hscope : Tier.Reaches (w.record scope) tier)

include hcalls hscope

/-- Arguments have paths of their own, so what one of them takes is in no way of the others.
    Those for parameters of one name share a path, and only the last one counts. -/
theorem evaluateArguments_upholds (found : Array Value) {args : List (Expr × String)}
    (hargs : ∀ a ∈ args, a.1.WellNamed ∧ IsIdentifier a.2)
    (hrepeated : ∀ name, List.Duplicate name (args.map (·.2)) →
      Repeated begun (joinPath path s!"({name})"))
    (hopen : ∀ a ∈ args, w.Open begun tier (joinPath path s!"({a.2})")) :
    (evaluateArguments scope path found args).Upholds begun carryOut inside w tier
      (regions path {id | ∃ name, IsIdentifier name ∧ id = s!"({name})"})
      fun u values => ∃ given, values = found.toList ++ given ∧
        LastFit u tier (args.map (·.2)) given := by
  induction args generalizing w found with
  | nil => exact .pure ⟨[], (List.append_nil _).symm, trivial⟩
  | cons a rest ih =>
    rw [List.forall_mem_cons] at hargs hopen
    obtain ⟨harg, hname⟩ := hargs.1
    have hargument := Program.evaluatePart_repeated hcalls harg hscope
      hname.partId_argument.ne_empty hopen.1 fun hagain => hrepeated a.2 (.cons_mem hagain)
    refine .bind hargument (region_subset_regions ⟨a.2, hname, rfl⟩) ?_
    rintro u v - hwu ⟨hv, hkept⟩
    have hopen' : ∀ b ∈ rest, u.Open begun tier (joinPath path s!"({b.2})") := by
      intro b hb
      have hname' := (hargs.2 b hb).2
      refine hkept _ (hopen.2 b hb) ?_
      by_cases hsame : b.2 = a.2
      · exact .inl (hsame ▸ List.mem_map_of_mem hb)
      · exact .inr (region_joinPath_disjoint hname'.partId_argument.ne_empty
          hname.partId_argument.ne_empty (hname'.argument_apart hname hsame))
    refine (ih (hwu.reaches_record hscope) (found.push v) hargs.2
      (fun name htwice => hrepeated name (.cons_duplicate htwice)) hopen').imp subset_rfl ?_
    rintro x values - hux ⟨given, rfl, hgiven⟩
    exact ⟨v :: given, by simp, hv.imp_right (·.mono hux.toExtends), hgiven⟩

/-- Arguments that are passed under one name share a path, too. The call fails when the second
    one has been evaluated. -/
theorem evaluateNamed_upholds {found : Array (String × Value)} {named : List Binding}
    (hfound : ∀ p ∈ found, p.1 ∈ named.map (·.name.name) ∨ p.2.Fits w tier)
    (hnamed : ∀ a ∈ named, IsIdentifier a.name.name ∧ a.value.WellNamed)
    (hrepeated : ∀ name, List.Duplicate name (named.map (·.name.name)) →
      Repeated begun (joinPath path name))
    (hopen : ∀ a ∈ named, w.Open begun tier (joinPath path a.name.name)) :
    (evaluateNamed scope path found named).Upholds begun carryOut inside w tier
      (regions path {id | IsIdentifier id})
      fun u values => ∀ p ∈ values, p.2.Fits u tier := by
  induction named generalizing w found with
  | nil => exact .pure fun p hp => (hfound p (Array.mem_toList_iff.1 hp)).resolve_left (by simp)
  | cons a rest ih =>
    rw [List.forall_mem_cons] at hnamed hopen
    obtain ⟨hname, hvalue⟩ := hnamed.1
    refine .bind (Program.evaluatePart_repeated hcalls hvalue hscope hname.ne_empty hopen.1
      fun hagain => hrepeated _ (.cons_mem hagain)) (region_subset_regions hname) ?_
    rintro u v - hwu ⟨hv, hkept⟩
    dsimp only
    split
    · exact .raise _
    · next hnew =>
      refine ih (hwu.reaches_record hscope) (fun p hp => ?_) hnamed.2
        (fun name htwice => hrepeated name (.cons_duplicate htwice))
        fun a' ha' => hkept _ (hopen.2 a' ha') ?_
      · obtain hp | rfl := Array.mem_push.1 hp
        · have hne : p.1 ≠ a.name.name := fun heq =>
            hnew (Array.any_eq_true'.2 ⟨p, hp, by simp [heq]⟩)
          exact (hfound p hp).imp (fun hmem => (List.mem_cons.1 hmem).resolve_left hne)
            (·.mono hwu.toExtends)
        · exact hv
      · have hname' := (hnamed.2 a' ha').1
        by_cases hsame : a'.name.name = a.name.name
        · exact .inl (hsame ▸ List.mem_map_of_mem ha')
        · exact .inr (region_joinPath_disjoint hname'.ne_empty hname.ne_empty
            (hname'.apart hname hsame))

/-- The items of an array literal are numbered. -/
theorem evaluateItems_upholds {count : Nat} {found : Array CellId}
    (hfound : ∀ c ∈ found, Tier.Reaches (w.cell c) tier) {items : List Expr}
    (hitems : ∀ item ∈ items, item.WellNamed)
    (hopen : ∀ n, count ≤ n → w.Open begun tier (joinPath path s!"_vecelem{n}")) :
    (evaluateItems scope path count found items).Upholds begun carryOut inside w tier (within path)
      fun u cells => ∀ c ∈ cells, Tier.Reaches (u.cell c) tier := by
  induction items generalizing w found count with
  | nil => exact .pure hfound
  | cons item rest ih =>
    rw [List.forall_mem_cons] at hitems
    refine .bind (Program.evaluatePart_upholds hcalls hitems.1 hscope (partId_item count).ne_empty
      (hopen count (Nat.le_refl count))) (partId_item count).region_within fun u v _ hwu hv => ?_
    have hu := hwu.reaches_record hscope
    have hkept : ∀ c ∈ found, Tier.Reaches (u.cell c) tier := fun c hc =>
      hwu.reaches_cell (hfound c hc)
    have hopen' (n : Nat) (hn : count + 1 ≤ n) :
        u.Open begun tier (joinPath path s!"_vecelem{n}") :=
      (hopen n (Nat.le_of_succ_le hn)).after_part (partId_item n) (partId_item count)
        (items_apart (Nat.ne_of_gt hn)) hwu
    split
    · next a ha =>
      have hcells : ∀ c ∈ a.cells, Tier.Reaches (u.cell c) tier := by
        simpa only [Value.Fits, ha, Payload.Fits] using hv
      refine ih hu (fun c hc => ?_) hitems.2 hopen'
      exact (Array.mem_append.1 hc).elim (hkept c) (hcells c)
    · refine .bind_still (Program.ready_upholds hv) fun x cell _ hux hcell => ?_
      refine ih (hux.reaches_record hu) (fun c hc => ?_) hitems.2 fun n hn =>
        (hopen' n hn).later hux (Set.disjoint_empty _)
      obtain hc | rfl := Array.mem_push.1 hc
      · exact hux.reaches_cell (hkept c hc)
      · exact hcell

end Evaluated

end Evaluator

end NetDesc
