import Lorica.MappedObjectId

/-!
`get_mapped_objectId` copies `mapped_object_id_` and stores two members over
the copy; `already_mapped` copies the tail of a key into a structure and reads
the members there. The two agree on the layout.
-/

namespace Lorica

open Machine

namespace Instance

variable (inst : Instance)

/-- `mapped_object_id_` when the constructor has filled it in. -/
def mappedObjectId : List UInt8 :=
  magic ++ [0x01, 0x30] ++ toOctets 2 inst.pid.toNat ++ toOctets 4 0 ++
    toOctets 4 inst.hostid.toNat

/-- `get_mapped_objectId` with the index that `next_index` gave. -/
def getMappedObjectId (outFacing : Bool) (index : UInt32) : ObjectId :=
  let buffer := inst.mappedObjectId
  let buffer := writeOctets buffer 5 [inOut outFacing]
  writeOctets buffer 8 (toOctets 4 index.toNat)

/-- Another magic, pid or hostid. -/
def Differs (tail id : List UInt8) : Prop :=
  field 0 4 tail ≠ field 0 4 id ∨ field 6 2 tail ≠ field 6 2 id ∨
    field 12 4 tail ≠ field 12 4 id

/-- What is stored lands between the members that are left alone. -/
theorem getMappedObjectId_eq (f : Bool) (i : UInt32) :
    inst.getMappedObjectId f i = inst.objectId f i := by
  simp [getMappedObjectId, mappedObjectId, objectId, writeOctets, magic, toOctets]

theorem field_objectId (f : Bool) (i : UInt32) :
    field 0 4 (inst.objectId f i) = magic ∧
    field 6 2 (inst.objectId f i) = toOctets 2 inst.pid.toNat ∧
    field 12 4 (inst.objectId f i) = toOctets 4 inst.hostid.toNat := by
  refine ⟨by simp [field, objectId, magic], ?_, ?_⟩
  · exact (readOctets_eq_some_iff (by simp) inst.pid.toNat_lt).mp (inst.readPid_objectId f i)
  · exact (readOctets_eq_some_iff (by simp) inst.hostid.toNat_lt).mp
      (inst.readHostid_objectId f i)

/-- The three tests of `already_mapped` compare the members octet by octet. -/
theorem owns_eq_true_iff {tail : List UInt8} (h : tail.length = 16) (f : Bool) (i : UInt32) :
    inst.owns tail = true ↔ ¬ Differs tail (inst.objectId f i) := by
  obtain ⟨hmagic, hpid, hhostid⟩ := inst.field_objectId f i
  have hreadPid : readOctets tail 6 2 = some inst.pid.toNat ↔
      field 6 2 tail = toOctets 2 inst.pid.toNat :=
    readOctets_eq_some_iff (by omega) inst.pid.toNat_lt
  have hreadHostid : readOctets tail 12 4 = some inst.hostid.toNat ↔
      field 12 4 tail = toOctets 4 inst.hostid.toNat :=
    readOctets_eq_some_iff (by omega) inst.hostid.toNat_lt
  have htake : field 0 4 tail = tail.take 4 := by rw [field, List.drop_zero]
  unfold owns Differs
  rw [hmagic, hpid, hhostid, htake]
  simp only [Bool.and_eq_true, decide_eq_true_eq, hreadPid, hreadHostid, ne_eq, not_or,
    not_not, and_assoc]

/-- Every id is read back behind every prefix, and nothing but a key that ends
in such an id is taken for mapped. -/
theorem objectId_codec (inst : Instance) :
    (∀ (before : List UInt8) (f g : Bool) (i index : UInt32),
      inst.alreadyMapped (some (before ++ inst.getMappedObjectId f i)) g index =
        (if f = g then .alreadyMapped else .reverseMapped, i)) ∧
    ∀ (key : List UInt8) (g : Bool) (index : UInt32),
      (key.length < 16 ∨ ∀ f i, Differs (keyTail key) (inst.getMappedObjectId f i)) ↔
        inst.alreadyMapped (some key) g index = (.notMapped, index) := by
  simp only [getMappedObjectId_eq]
  constructor
  · intro before f g i index
    have htail := keyTail_append before (inst.objectId_length f i)
    have hlength : ¬ (before ++ inst.objectId f i).length < 16 := by simp
    have hletter : inOut f = inOut g ↔ f = g := ⟨inOut_injective, congrArg inOut⟩
    simp only [alreadyMapped, if_neg hlength, htail, owns_objectId, if_true, getElem_objectId,
      readIndex_objectId, Option.getD_some, Option.some.injEq, hletter]
    split <;> rfl
  · intro key g index
    rw [← ours_eq_false_iff, ← Bool.not_eq_true, ours_iff]
    by_cases hshort : key.length < 16
    · refine iff_of_true (.inl hshort) ?_
      rintro ⟨k, hk, hlong, -⟩
      obtain rfl := Option.some.inj hk
      omega
    · have htail := inst.owns_eq_true_iff (keyTail_length (not_lt.mp hshort))
      constructor
      · rintro hdiffers ⟨k, hk, -, howns⟩
        obtain rfl := Option.some.inj hk
        exact (htail true 0).mp howns (hdiffers.resolve_left hshort true 0)
      · intro hnot
        refine .inr fun f i => ?_
        by_contra hsame
        exact hnot ⟨key, rfl, not_lt.mp hshort, (htail f i).mpr hsame⟩

/-- The next process of the host, behind the key of some POA. -/
example : (Instance.mk 7 1).alreadyMapped
    (some ([0x50, 0x4f, 0x41] ++ (Instance.mk 8 1).getMappedObjectId true 42)) true 5 =
      (.notMapped, 5) := by
  decide

end Instance

end Lorica
