import Lorica.RegistryRuns

/-!
How the constructor of `ProxyMapper` fills in `mapped_object_id_`, and when the
ids of two processes of one host can be told apart. A process id is cut to the
16 bits of the field `pid`.
-/

namespace Lorica

/-- What the constructor looks at of an `ACE_INET_Addr`: whether its type is
`PF_INET` (or `PF_INET6` where ACE has it), its hash and `is_loopback`. -/
structure InetAddr where
  inet : Bool
  hash : UInt64
  loopback : Bool

/-- The loop over the addresses of the host: it takes the last one it looks at
and stops behind the first that is no loopback. -/
def scanHostid : List InetAddr → UInt32 → UInt32
  | [], hostid => hostid
  | addr :: rest, hostid =>
      if addr.inet then
        if addr.loopback then scanHostid rest addr.hash.toUInt32
        else addr.hash.toUInt32
      else scanHostid rest hostid

/-- The part of the constructor that sets `mapped_object_id_`; the addresses are
absent when `get_ip_interfaces` fails. -/
def Instance.new (getpid : UInt32) (interfaces : Option (List InetAddr)) : Instance where
  pid := getpid.toUInt16
  hostid := scanHostid (interfaces.getD []) 0

namespace Instance

/-- `already_mapped`, with `mapped_values_ != 0` as a flag. -/
def classify (inst : Instance) (cached : Bool) (key : Option (List UInt8))
    (outFacing : Bool) (index : UInt32) : MappedStatus × UInt32 :=
  if cached then inst.alreadyMapped key outFacing index else (.notMapped, index)

/-- Nothing made by `other` is taken for a mapping of `inst`: a key that ends in
one of its ids is not mapped, whichever facing is asked for, and `add_native`
maps such a reference anew without a look into the table. -/
structure Isolated (cached : Bool) (inst other : Instance) : Prop where
  notMapped : ∀ (before : List UInt8) (f : Bool) (i : UInt32) (outFacing : Bool)
    (index : UInt32),
    inst.classify cached (some (before ++ other.objectId f i)) outFacing index =
      (.notMapped, index)
  unresolved : ∀ (before : List UInt8) (f : Bool) (i : UInt32) (orb : Orb) (m : Nat)
    (native : ObjRef) (typeId : String) (outFacing requireSecure : Bool) (reg : Registry),
    (reg.table m).isSome = cached → native.key = some (before ++ other.objectId f i) →
    (Registry.addNativeHere orb inst m native typeId outFacing requireSecure).run reg =
      (Registry.addNativeUnchecked orb inst m native typeId outFacing requireSecure >>=
        fun rmv => pure (some rmv)).run reg

variable {inst other : Instance} {cached : Bool}

theorem ours_objectId (before : List UInt8) (f : Bool) (i : UInt32) :
    inst.ours (some (before ++ other.objectId f i)) = inst.owns (other.objectId f i) := by
  have htail := keyTail_append before (other.objectId_length f i)
  simp [ours, htail]

/-- A table is never looked into that is not there. -/
theorem isolated_uncached : Isolated false inst other where
  notMapped _ _ _ _ _ := rfl
  unresolved before f i orb m native typeId outFacing requireSecure reg htable hkey := by
    have hnone : reg.table m = none := Option.not_isSome_iff_eq_none.mp (by simp [htable])
    exact Registry.run_addNativeHere_new orb inst 0 (Or.inl hnone)

/-- Different fields keep two instances apart, and nothing else does. -/
theorem isolated_cached_iff : Isolated true inst other ↔ inst ≠ other := by
  constructor
  · rintro h rfl
    have hnot := h.notMapped [] true 0 true 0
    rw [classify, if_pos rfl, ← ours_eq_false_iff, ours_objectId, owns_objectId] at hnot
    cases hnot
  · intro hne
    have hnot : ∀ (before : List UInt8) (f : Bool) (i : UInt32) (outFacing : Bool)
        (index : UInt32),
        inst.alreadyMapped (some (before ++ other.objectId f i)) outFacing index =
          (.notMapped, index) := by
      intro before f i outFacing index
      rw [← ours_eq_false_iff, ours_objectId, ← Bool.not_eq_true, owns_objectId_iff]
      exact hne
    refine ⟨hnot, ?_⟩
    intro before f i orb m native typeId outFacing requireSecure reg _ hkey
    apply Registry.run_addNativeHere_new orb inst 0
    rw [hkey]
    exact Or.inr (hnot before f i outFacing 0)

/-- One host gives its processes one host id, so what tells them apart are the
low 16 bits of their process ids. -/
theorem new_eq_iff (p q : UInt32) (interfaces : Option (List InetAddr)) :
    Instance.new p interfaces = Instance.new q interfaces ↔
      p.toNat % 65536 = q.toNat % 65536 := by
  have hpid : p.toUInt16 = q.toUInt16 ↔ p.toNat % 65536 = q.toNat % 65536 := by
    rw [← UInt16.toNat_inj, UInt32.toNat_toUInt16, UInt32.toNat_toUInt16]
  rw [Instance.mk.injEq]
  exact (and_iff_left rfl).trans hpid

/-- A process takes no id of another process of its host for its own exactly
when it keeps no table or the low 16 bits of the two process ids differ. -/
theorem isolated_iff_pids (cached : Bool) (p q : UInt32)
    (interfaces : Option (List InetAddr)) :
    Isolated cached (Instance.new p interfaces) (Instance.new q interfaces) ↔
      cached = false ∨ p.toNat % 65536 ≠ q.toNat % 65536 := by
  cases cached with
  | false => exact iff_of_true isolated_uncached (Or.inl rfl)
  | true =>
      rw [isolated_cached_iff, Ne, new_eq_iff]
      simp

/-- Two processes of one host, 65536 process ids apart. -/
theorem not_isolated_pids :
    (1234 : UInt32) ≠ 66770 ∧
    ¬ Isolated true
      (Instance.new 1234 (some [⟨true, 0x7f000001, true⟩, ⟨true, 0xc0a80105, false⟩]))
      (Instance.new 66770 (some [⟨true, 0x7f000001, true⟩, ⟨true, 0xc0a80105, false⟩])) := by
  refine ⟨by decide, ?_⟩
  rw [isolated_cached_iff, not_not]
  decide

end Instance

end Lorica
