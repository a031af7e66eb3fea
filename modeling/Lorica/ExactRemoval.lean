import Lorica.EntryNames

/-!
Which entry a removal takes out. `remove_mapped` turns the reference back into
an object id and clears the slot that octets 8 to 11 of the id lead to, without
a look at the `mapped_ref_` of the value there; and `reference_to_id` raises a
user exception for the references of other POAs. So a removal is exact only for
the references the slot was made for, and for those that lead nowhere.
-/

namespace Lorica

open Machine

namespace Registry

/-- The reference is the `mapped_ref_` of the value in a slot, which was made on
the POA of that side. -/
def IsEntry (reg : Registry) (mapped : Option ObjRef) (outFacing : Bool) (m i : Nat) : Prop :=
  ∃ a v oid native, reg.slotOf m i = some a ∧ reg.values.cells a = some v ∧
    mapped = some v.mappedRef ∧ .mapped ⟨m, outFacing⟩ oid native a ∈ reg.history

/-- The removal of the reference comes to no occupied slot: no mapper evaluates
its type, or the POA refuses it with a system exception, or its id leads to an
empty slot. -/
def LeadsNowhere (orb : Orb) (reg : Registry) (mapped : ObjRef) (outFacing : Bool) : Prop :=
  ∀ m t, reg.handler mapped.typeId = some m → reg.table m = some t →
    (∃ name, orb.referenceToId ⟨m, outFacing⟩ mapped = .error (.system name)) ∨
      ∃ oid index, orb.referenceToId ⟨m, outFacing⟩ mapped = .ok oid ∧
        readIndex oid = some index ∧ lookup t index = none

/-- The mapper that evaluates the type of the reference is the one that holds
its entry, at an index that passes the bounds test; a reference without an entry
leads nowhere. -/
structure Removable (orb : Orb) (reg : Registry) (mapped : ObjRef) (outFacing : Bool) :
    Prop where
  own : ∀ m i, reg.IsEntry (some mapped) outFacing m i →
    reg.handler mapped.typeId = some m ∧ ∀ t, reg.table m = some t → i < t.limit.toNat
  other : (∀ m i, ¬ reg.IsEntry (some mapped) outFacing m i) →
    reg.LeadsNowhere orb mapped outFacing

end Registry

namespace MapperState

open ReferenceMapper

/-- `remove_server` or `remove_client` unbinds the entry of the reference and
leaves every other one alone, and raises system exceptions only. -/
structure RemovesExactly (orb : Orb) (s : MapperState) (mapped : Option ObjRef)
    (outFacing : Bool) : Prop where
  unbinds : ∀ m i, s.reg.IsEntry mapped outFacing m i →
    ((remove orb mapped outFacing).run s).2.reg.slotOf m i = none
  spares : ∀ m i, ¬ s.reg.IsEntry mapped outFacing m i →
    ((remove orb mapped outFacing).run s).2.reg.slotOf m i = s.reg.slotOf m i
  values : ∀ m i a, ¬ s.reg.IsEntry mapped outFacing m i → s.reg.slotOf m i = some a →
    ((remove orb mapped outFacing).run s).2.reg.values.cells a = s.reg.values.cells a
  untouched : (∀ m i, ¬ s.reg.IsEntry mapped outFacing m i) →
    ((remove orb mapped outFacing).run s).2.reg = s.reg
  throws : ((remove orb mapped outFacing).run s).1 = .ok () ∨
    ∃ name, ((remove orb mapped outFacing).run s).1 = .raised (.system name)

variable {orb : Orb} {inst : Instance} {s : MapperState} {mapped : ObjRef} {outFacing : Bool}

/-- The POA of an entry takes its reference back, to the id with its index. -/
theorem isEntry_made (horb : orb.Lawful) (hs : s.Orderly orb inst []) {m i : Nat}
    (h : s.reg.IsEntry (some mapped) outFacing m i) :
    ∃ a index, s.reg.slotOf m i = some a ∧ i = index.toNat ∧
      orb.referenceToId ⟨m, outFacing⟩ mapped = .ok (inst.objectId outFacing index) := by
  obtain ⟨a, v, oid, native, hslot, hv, hmapped, hevent⟩ := h
  obtain ⟨facing, index, native', v', hi, hevent', -, hv', -, hcreate⟩ :=
    hs.traced.made m i a hslot
  obtain rfl := Option.some.inj (hv'.symm.trans hv)
  obtain ⟨hpoa, -, -⟩ := hs.traced.once _ _ _ _ _ _ _ hevent' hevent
  obtain ⟨-, rfl⟩ := Poa.mk.inj hpoa
  obtain rfl := Option.some.inj hmapped
  exact ⟨a, index, hslot, hi, horb.to_id_own _ _ _ _ hcreate⟩

/-- The id of an entry's reference is read back as the index of its slot. -/
theorem isEntry_index (horb : orb.Lawful) (hs : s.Orderly orb inst []) {m i : Nat}
    (h : s.reg.IsEntry (some mapped) outFacing m i) {oid : ObjectId} {index : UInt32}
    (hid : orb.referenceToId ⟨m, outFacing⟩ mapped = .ok oid)
    (hread : readIndex oid = some index) : i = index.toNat := by
  obtain ⟨a, index', -, hi, hid'⟩ := isEntry_made horb hs h
  obtain rfl := Except.ok.inj (hid'.symm.trans hid)
  obtain rfl : index' = index := by simpa using hread
  exact hi

theorem Orderly.removable (horb : orb.Lawful) (hs : s.Orderly orb inst [])
    (h : s.RemovesExactly orb (some mapped) outFacing) :
    s.reg.Removable orb mapped outFacing := by
  obtain ⟨hunbinds, hspares, -, -, hthrows⟩ := h
  have hremoving := remove_removing hs mapped outFacing
  -- an entry leaves its slot only if the call takes out that very slot
  have hstays : ∀ m i, ((remove orb (some mapped) outFacing).run s).2 = s →
      ¬ s.reg.IsEntry (some mapped) outFacing m i := by
    intro m i hsame hentry
    obtain ⟨a, -, hslot, -, -⟩ := isEntry_made horb hs hentry
    have hgone := hunbinds m i hentry
    rw [hsame, hslot] at hgone
    cases hgone
  generalize hresult : (remove orb (some mapped) outFacing).run s = result at *
  cases hremoving with
  | unhandled hhandler =>
      refine ⟨fun m i hentry => absurd hentry (hstays m i rfl), fun _ m t hm => ?_⟩
      rw [hhandler] at hm
      cases hm
  | @refused m e hhandler hid =>
      refine ⟨fun m i hentry => absurd hentry (hstays m i rfl), fun _ k t hk _ => .inl ?_⟩
      obtain rfl := Option.some.inj (hhandler.symm.trans hk)
      obtain hok | ⟨name, hname⟩ := hthrows
      · cases hok
      · obtain rfl : e = .system name := by simpa using hname
        exact ⟨name, hid⟩
  | short hhandler hid hread =>
      obtain hok | ⟨name, hname⟩ := hthrows
      · cases hok
      · cases hname
  | @missed m t oid index hhandler ht hid hread hlookup =>
      refine ⟨fun m i hentry => absurd hentry (hstays m i rfl), fun _ k u hk hu => .inr ?_⟩
      obtain rfl := Option.some.inj (hhandler.symm.trans hk)
      obtain rfl := Option.some.inj (ht.symm.trans hu)
      exact ⟨oid, index, hid, hread, hlookup⟩
  | @took m a t oid index s' hhandler ht hid hread hlookup hcleared =>
      have hfull := Registry.lookup_slot ht hlookup
      constructor
      · intro k i hentry
        have hgone := hunbinds k i hentry
        obtain ⟨b, -, hslot, -, -⟩ := isEntry_made horb hs hentry
        rw [hcleared.slots, hslot] at hgone
        have hhere : k = m ∧ i = index.toNat := by
          by_contra hne
          rw [if_neg hne] at hgone
          cases hgone
        obtain ⟨rfl, rfl⟩ := hhere
        refine ⟨hhandler, fun u hu => ?_⟩
        obtain rfl := Option.some.inj (ht.symm.trans hu)
        exact UInt32.lt_iff_toNat_lt.mp (Registry.lookup_eq_some.mp hlookup).1
      · intro hnone
        have hkept := hspares m index.toNat (hnone m _)
        rw [hcleared.slots, if_pos ⟨rfl, rfl⟩, hfull] at hkept
        cases hkept

/-- A call that changes nothing is exact for a reference without an entry. -/
theorem removesExactly_of_idle {mapped : Option ObjRef} {outcome : Outcome Exn Unit}
    (hrun : (remove orb mapped outFacing).run s = (outcome, s))
    (hnone : ∀ m i, ¬ s.reg.IsEntry mapped outFacing m i)
    (hthrows : outcome = .ok () ∨ ∃ name, outcome = .raised (.system name)) :
    s.RemovesExactly orb mapped outFacing := by
  constructor
  · exact fun m i hentry => absurd hentry (hnone m i)
  · exact fun m i _ => by rw [hrun]
  · exact fun m i a _ _ => by rw [hrun]
  · exact fun _ => by rw [hrun]
  · rw [hrun]
    exact hthrows

/-- An entry that its own mapper is asked for, at an index within bounds, is
taken out. -/
theorem Orderly.remove_entry (horb : orb.Lawful) (hs : s.Orderly orb inst []) {m i : Nat}
    (hentry : s.reg.IsEntry (some mapped) outFacing m i)
    (hhandler : s.reg.handler mapped.typeId = some m)
    (hlimit : ∀ t, s.reg.table m = some t → i < t.limit.toNat) :
    ∃ a s', s.reg.slotOf m i = some a ∧
      (remove orb (some mapped) outFacing).run s = (.ok (), s') ∧ Cleared orb inst s m i a s' := by
  obtain ⟨a, index, hslot, rfl, hown⟩ := isEntry_made horb hs hentry
  have hremoving := remove_removing hs mapped outFacing
  generalize hresult : (remove orb (some mapped) outFacing).run s = result at hremoving
  cases hremoving with
  | unhandled hnone =>
      rw [hhandler] at hnone
      cases hnone
  | refused hm hid =>
      obtain rfl := Option.some.inj (hhandler.symm.trans hm)
      rw [hown] at hid
      cases hid
  | short hm hid hread =>
      obtain rfl := Option.some.inj (hhandler.symm.trans hm)
      obtain rfl := Except.ok.inj (hown.symm.trans hid)
      rw [inst.readIndex_objectId] at hread
      cases hread
  | missed hm ht hid hread hlookup =>
      obtain rfl := Option.some.inj (hhandler.symm.trans hm)
      have hindex := isEntry_index horb hs hentry hid hread
      rw [hindex, Registry.slotOf_eq ht] at hslot
      have hbound := hlimit _ ht
      rw [hindex] at hbound
      rw [Registry.lookup_eq_some.mpr ⟨UInt32.lt_iff_toNat_lt.mpr hbound, hslot⟩] at hlookup
      cases hlookup
  | took hm ht hid hread hlookup hcleared =>
      obtain rfl := Option.some.inj (hhandler.symm.trans hm)
      rw [isEntry_index horb hs hentry hid hread]
      exact ⟨_, _, Registry.lookup_slot ht hlookup, rfl, hcleared⟩

/-- A reference that leads nowhere changes nothing and raises no user
exception. -/
theorem Orderly.remove_nowhere (hs : s.Orderly orb inst [])
    (h : s.reg.LeadsNowhere orb mapped outFacing) :
    ∃ outcome, (remove orb (some mapped) outFacing).run s = (outcome, s) ∧
      (outcome = .ok () ∨ ∃ name, outcome = .raised (.system name)) := by
  have hremoving := remove_removing hs mapped outFacing
  generalize (remove orb (some mapped) outFacing).run s = result at hremoving
  have hend : ∀ m, s.reg.handler mapped.typeId = some m → ∃ t, s.reg.table m = some t ∧
      ((∃ name, orb.referenceToId ⟨m, outFacing⟩ mapped = .error (.system name)) ∨
        ∃ oid index, orb.referenceToId ⟨m, outFacing⟩ mapped = .ok oid ∧
          readIndex oid = some index ∧ Registry.lookup t index = none) := by
    intro m hm
    obtain ⟨t, ht⟩ := hs.cached m (Registry.handler_lt hm)
    exact ⟨t, ht, h m t hm ht⟩
  cases hremoving with
  | unhandled _ => exact ⟨_, rfl, .inl rfl⟩
  | missed _ _ _ _ _ => exact ⟨_, rfl, .inl rfl⟩
  | refused hm hid =>
      obtain ⟨t, -, ⟨name, hname⟩ | ⟨oid, index, hok, -, -⟩⟩ := hend _ hm
      · rw [hid] at hname
        obtain rfl := Except.error.inj hname
        exact ⟨_, rfl, .inr ⟨name, rfl⟩⟩
      · rw [hid] at hok
        cases hok
  | short hm hid hread =>
      obtain ⟨t, -, ⟨name, hname⟩ | ⟨oid, index, hok, hindex, -⟩⟩ := hend _ hm
      · rw [hid] at hname
        cases hname
      · obtain rfl := Except.ok.inj (hid.symm.trans hok)
        rw [hread] at hindex
        cases hindex
  | took hm ht hid hread hlookup _ =>
      obtain ⟨t, ht', ⟨name, hname⟩ | ⟨oid, index, hok, hindex, hmiss⟩⟩ := hend _ hm
      · rw [hid] at hname
        cases hname
      · obtain rfl := Option.some.inj (ht.symm.trans ht')
        obtain rfl := Except.ok.inj (hid.symm.trans hok)
        obtain rfl := Option.some.inj (hread.symm.trans hindex)
        rw [hlookup] at hmiss
        cases hmiss

theorem Orderly.removesExactly (horb : orb.Lawful) (hs : s.Orderly orb inst [])
    (h : s.reg.Removable orb mapped outFacing) :
    s.RemovesExactly orb (some mapped) outFacing := by
  by_cases hsome : ∃ m i, s.reg.IsEntry (some mapped) outFacing m i
  · obtain ⟨m, i, hentry⟩ := hsome
    obtain ⟨hhandler, hlimit⟩ := h.own m i hentry
    obtain ⟨a, s', hslot, hrun, hcleared⟩ := hs.remove_entry horb hentry hhandler hlimit
    obtain ⟨-, index, -, hi, hown⟩ := isEntry_made horb hs hentry
    have honly : ∀ k j, s.reg.IsEntry (some mapped) outFacing k j → k = m ∧ j = i := by
      intro k j hother
      obtain rfl := Option.some.inj (hhandler.symm.trans (h.own k j hother).1)
      exact ⟨rfl, (isEntry_index horb hs hother hown (inst.readIndex_objectId _ _)).trans hi.symm⟩
    constructor
    · intro k j hother
      rw [hrun, hcleared.slots, if_pos (honly k j hother)]
    · intro k j hnot
      rw [hrun, hcleared.slots, if_neg]
      rintro ⟨rfl, rfl⟩
      exact hnot hentry
    · intro k j b hnot hb
      rw [hrun]
      apply hcleared.values
      rintro rfl
      obtain ⟨rfl, rfl⟩ := hs.safe.injective _ _ _ _ _ hb hslot
      exact hnot hentry
    · exact fun hnone => absurd hentry (hnone m i)
    · rw [hrun]
      exact .inl rfl
  · have hnone : ∀ m i, ¬ s.reg.IsEntry (some mapped) outFacing m i :=
      fun m i hentry => hsome ⟨m, i, hentry⟩
    obtain ⟨outcome, hrun, hthrows⟩ := hs.remove_nowhere (h.other hnone)
    exact removesExactly_of_idle hrun hnone hthrows

/-- In every run with the cache on, a removal is exact exactly for the nil
reference and the references that are removable. -/
theorem removesExactly_iff_removable (orb : Orb) (horb : orb.Lawful) (inst : Instance)
    (s : MapperState) (hreach : (mapperSystem orb inst true).Reachable s)
    (mapped : Option ObjRef) (outFacing : Bool) :
    s.RemovesExactly orb mapped outFacing ↔
      ∀ ref, mapped = some ref → s.reg.Removable orb ref outFacing := by
  have hs : s.Orderly orb inst [] := orderly_of_reach hreach
  cases mapped with
  | none =>
      refine ⟨fun _ => nofun, fun _ => ?_⟩
      have hrun : (remove orb none outFacing).run s = (.ok (), s) := by
        cases outFacing <;> rfl
      apply removesExactly_of_idle hrun ?_ (.inl rfl)
      rintro m i ⟨a, v, oid, native, -, -, hmapped, -⟩
      cases hmapped
  | some mapped =>
      constructor
      · rintro h _ ⟨⟩
        exact hs.removable horb h
      · exact fun h => hs.removesExactly horb (h mapped rfl)

theorem removesExactly_named_server :
    ∃ s, namedRun (fun _ _ => true) [.asServer (some sampleNative) "hello" none] = some s ∧
      s.names.map Prod.fst = ["hello"] ∧
      (s.RemovesExactly Orb.spelled (some sampleMapped) true ↔
        ∀ ref, some sampleMapped = some ref → s.reg.Removable Orb.spelled ref true) := by
  obtain ⟨s, hs⟩ := Option.isSome_iff_exists.mp (show
    (namedRun (fun _ _ => true) [.asServer (some sampleNative) "hello" none]).isSome
      by decide +kernel)
  have hnames : s.names.map Prod.fst = ["hello"] :=
    System.replay_read (fun s => s.names.map Prod.fst) hs (by decide +kernel)
  have hreach : (mapperSystem Orb.spelled ⟨7, 42⟩ true).Reachable s :=
    (namedRun_reach hs).mono fun _ _ _ => trivial
  exact ⟨s, hs, hnames, removesExactly_iff_removable Orb.spelled Orb.spelled_lawful ⟨7, 42⟩ s
    hreach (some sampleMapped) true⟩

/-- A server is removed and its index goes to a server of another type: the old
mapped reference takes out the new server, and the native of the old one raises
a user exception. -/
theorem not_removesExactly_stale_native :
    ∃ s, (mapperSystem Orb.spelled ⟨7, 42⟩ true).Reachable s ∧
      ¬ s.RemovesExactly Orb.spelled (some sampleMapped) true ∧
      ¬ s.RemovesExactly Orb.spelled (some sampleNative) true := by
  let other : ObjRef := { sampleNative with typeId := "IDL:Test/Other:1.0" }
  let ops : List ServerOp := [.asServer (some sampleNative) "" none,
    .removeServer (some sampleMapped), .asServer (some other) "" none]
  obtain ⟨s, hs⟩ := Option.isSome_iff_exists.mp (show
    (namedRun (fun _ _ => true) ops).isSome by decide +kernel)
  refine ⟨s, (namedRun_reach hs).mono fun _ _ _ => trivial, ?_, ?_⟩
  · intro h
    have hentry : ¬ s.reg.IsEntry (some sampleMapped) true 0 0 := by
      rintro ⟨a, v, oid, native, hslot, hv, hmapped, -⟩
      have htype : ((s.reg.slotOf 0 0).bind s.reg.values.cells).map (·.mappedRef.typeId) =
          some "IDL:Test/Other:1.0" :=
        System.replay_read (fun s => ((s.reg.slotOf 0 0).bind s.reg.values.cells).map
          (·.mappedRef.typeId)) hs (by decide +kernel)
      rw [hslot, Option.bind_some, hv, Option.map_some, ← Option.some.inj hmapped] at htype
      exact absurd htype (by decide)
    have hspared := h.spares 0 0 hentry
    have hfull : s.reg.slotOf 0 0 = some 1 :=
      System.replay_read (fun s => s.reg.slotOf 0 0) hs (by decide +kernel)
    have hgone : ((remove Orb.spelled (some sampleMapped) true).run s).2.reg.slotOf 0 0 = none :=
      System.replay_read (fun s =>
        ((remove Orb.spelled (some sampleMapped) true).run s).2.reg.slotOf 0 0) hs
        (by decide +kernel)
    rw [hgone, hfull] at hspared
    cases hspared
  · intro h
    have hraised : ((remove Orb.spelled (some sampleNative) true).run s).1 =
        .raised (.user "WrongAdapter") :=
      System.replay_read (fun s => ((remove Orb.spelled (some sampleNative) true).run s).1) hs
        (by decide +kernel)
    obtain hok | ⟨name, hname⟩ := h.throws
    · rw [hraised] at hok
      cases hok
    · rw [hraised] at hname
      cases hname

end MapperState

end Lorica
