import Lorica.Lib.LittleEndian

/-!
`MappedObjectId`, the 16-octet object id that a cached mapping carries, and
its two readers: `already_mapped`, which looks at the tail of an object key,
and `native_for_mapped_i`, which takes the index out of an incoming object
id. The fields lie packed at offsets 0 (magic), 4 (version), 5 (in_out),
6 (pid), 8 (index) and 12 (hostid).
-/

namespace Lorica

open Machine

abbrev ObjectId := List UInt8

/-- The part of `mapped_object_id_` that tells one Lorica process from
another. -/
structure Instance where
  pid : UInt16
  hostid : UInt32
deriving DecidableEq, Repr

/-- `{'L', 'R', 'C', 'A'}` -/
def magic : List UInt8 := [0x4c, 0x52, 0x43, 0x41]

/-- `out_facing ? 'O' : 'I'` -/
def inOut (outFacing : Bool) : UInt8 := if outFacing then 0x4f else 0x49

/-- The octets of `get_mapped_objectId` for an index taken from the table. -/
def Instance.objectId (inst : Instance) (outFacing : Bool) (index : UInt32) :
    ObjectId :=
  magic ++ [0x01, inOut outFacing] ++ toOctets 2 inst.pid.toNat ++
    toOctets 4 index.toNat ++ toOctets 4 inst.hostid.toNat

/-- `mid->index` for a buffer reinterpreted as a `MappedObjectId`; `none` when
the read passes the end of the buffer. -/
def readIndex (oid : ObjectId) : Option UInt32 :=
  (readOctets oid 8 4).map UInt32.ofNat

inductive MappedStatus where
  | alreadyMapped
  | reverseMapped
  | notMapped
  | mapperError
deriving DecidableEq, Repr

/-- The last 16 octets of a key, where `already_mapped` looks. -/
def keyTail (key : List UInt8) : List UInt8 :=
  key.drop (key.length - 16)

/-- The magic, pid and hostid of a 16-octet tail are those of this instance.
Version and in_out are not compared. -/
def Instance.owns (inst : Instance) (tail : List UInt8) : Bool :=
  tail.take 4 = magic && readOctets tail 6 2 = some inst.pid.toNat &&
    readOctets tail 12 4 = some inst.hostid.toNat

/-- `already_mapped` of a mapper that has a table. The index comes in as the
caller's variable and goes out with it. -/
def Instance.alreadyMapped (inst : Instance) (key : Option (List UInt8))
    (outFacing : Bool) (index : UInt32) : MappedStatus × UInt32 :=
  match key with
  | none => (.notMapped, index)
  | some key =>
      if key.length < 16 then (.notMapped, index)
      else
        let temp := keyTail key
        if inst.owns temp then
          let index := (readIndex temp).getD index
          if temp[5]? = some (inOut outFacing) then (.alreadyMapped, index)
          else (.reverseMapped, index)
        else (.notMapped, index)

/-- `already_mapped` never answers `MAPPER_ERROR`, and leaves the caller's
index alone unless it found an id of this instance. -/
theorem Instance.alreadyMapped_cases (inst : Instance)
    (key : Option (List UInt8)) (outFacing : Bool) (index : UInt32) :
    (∃ i, inst.alreadyMapped key outFacing index = (.alreadyMapped, i)) ∨
    (∃ i, inst.alreadyMapped key outFacing index = (.reverseMapped, i)) ∨
    inst.alreadyMapped key outFacing index = (.notMapped, index) := by
  unfold Instance.alreadyMapped
  cases key with
  | none => exact Or.inr (Or.inr rfl)
  | some key =>
      dsimp only
      split
      · exact Or.inr (Or.inr rfl)
      · split
        · split
          · exact Or.inl ⟨_, rfl⟩
          · exact Or.inr (Or.inl ⟨_, rfl⟩)
        · exact Or.inr (Or.inr rfl)

/-- The key ends in an id of this instance, of either facing. -/
def Instance.ours (inst : Instance) (key : Option (List UInt8)) : Bool :=
  key.any fun key => 16 ≤ key.length && inst.owns (keyTail key)

theorem Instance.ours_iff (inst : Instance) (key : Option (List UInt8)) :
    inst.ours key = true ↔
      ∃ k, key = some k ∧ 16 ≤ k.length ∧ inst.owns (keyTail k) = true := by
  cases key <;> simp [Instance.ours]

theorem Instance.ours_eq_false_iff (inst : Instance)
    (key : Option (List UInt8)) (outFacing : Bool) (index : UInt32) :
    inst.ours key = false ↔
      inst.alreadyMapped key outFacing index = (.notMapped, index) := by
  unfold Instance.alreadyMapped Instance.ours
  cases key with
  | none => simp
  | some key =>
      simp only [Option.any_some]
      split
      · next hshort => simp [Nat.not_le.mpr hshort]
      · next hlong =>
          simp only [Nat.not_lt.mp hlong, decide_true, Bool.true_and]
          cases inst.owns (keyTail key) with
          | false => simp
          | true =>
              simp only [if_true]
              split <;> simp

theorem inOut_injective {f g : Bool} (h : inOut f = inOut g) : f = g := by
  cases f <;> cases g <;> first | rfl | (revert h; decide)

namespace Instance

variable (inst : Instance)

@[simp] theorem objectId_length (f : Bool) (i : UInt32) :
    (inst.objectId f i).length = 16 := by
  simp [objectId, magic]

@[simp] theorem readIndex_objectId (f : Bool) (i : UInt32) :
    readIndex (inst.objectId f i) = some i := by
  have hread := readOctets_append
    (magic ++ [0x01, inOut f] ++ toOctets 2 inst.pid.toNat)
    (toOctets 4 inst.hostid.toNat) 4 i.toNat i.toNat_lt
  have hstart : (magic ++ [0x01, inOut f] ++ toOctets 2 inst.pid.toNat).length = 8 := by
    simp [magic]
  rw [hstart] at hread
  unfold readIndex objectId
  rw [hread]
  simp

theorem getElem_objectId (f : Bool) (i : UInt32) :
    (inst.objectId f i)[5]? = some (inOut f) := by
  simp [objectId, magic]

theorem readPid_objectId (f : Bool) (i : UInt32) :
    readOctets (inst.objectId f i) 6 2 = some inst.pid.toNat := by
  have hpid := readOctets_append (magic ++ [0x01, inOut f])
    (toOctets 4 i.toNat ++ toOctets 4 inst.hostid.toNat) 2 inst.pid.toNat
    inst.pid.toNat_lt
  have hbefore : (magic ++ [0x01, inOut f]).length = 6 := by simp [magic]
  have hassoc : inst.objectId f i = magic ++ [0x01, inOut f] ++
      toOctets 2 inst.pid.toNat ++
        (toOctets 4 i.toNat ++ toOctets 4 inst.hostid.toNat) := by
    simp [objectId]
  rw [hbefore] at hpid
  rw [hassoc]
  exact hpid

theorem readHostid_objectId (f : Bool) (i : UInt32) :
    readOctets (inst.objectId f i) 12 4 = some inst.hostid.toNat := by
  have hhost := readOctets_append
    (magic ++ [0x01, inOut f] ++ toOctets 2 inst.pid.toNat ++ toOctets 4 i.toNat)
    [] 4 inst.hostid.toNat inst.hostid.toNat_lt
  have hall : (magic ++ [0x01, inOut f] ++ toOctets 2 inst.pid.toNat ++
      toOctets 4 i.toNat).length = 12 := by simp [magic]
  rw [hall, List.append_nil] at hhost
  exact hhost

/-- An instance takes the ids of another for its own when they agree in the two
fields that are compared. -/
theorem owns_objectId_iff (other : Instance) (f : Bool) (i : UInt32) :
    inst.owns (other.objectId f i) = true ↔ inst = other := by
  have hmagic : (other.objectId f i).take 4 = magic := by simp [objectId, magic]
  unfold owns
  rw [hmagic, readPid_objectId, readHostid_objectId]
  simp only [decide_true, Bool.true_and, Bool.and_eq_true, decide_eq_true_eq,
    Option.some.injEq, UInt16.toNat_inj, UInt32.toNat_inj]
  constructor
  · rintro ⟨hpid, hhost⟩
    obtain ⟨pid, hostid⟩ := inst
    obtain rfl := hpid
    obtain rfl := hhost
    rfl
  · rintro rfl
    exact ⟨rfl, rfl⟩

theorem owns_objectId (f : Bool) (i : UInt32) :
    inst.owns (inst.objectId f i) = true :=
  (inst.owns_objectId_iff inst f i).mpr rfl

theorem objectId_injective {f g : Bool} {i j : UInt32}
    (h : inst.objectId f i = inst.objectId g j) : f = g ∧ i = j := by
  have hletter := congrArg (fun o : ObjectId => o[5]?) h
  have hindex := congrArg readIndex h
  simp only [getElem_objectId, Option.some.injEq] at hletter
  simp only [readIndex_objectId, Option.some.injEq] at hindex
  exact ⟨inOut_injective hletter, hindex⟩

end Instance

theorem keyTail_length {key : List UInt8} (h : 16 ≤ key.length) :
    (keyTail key).length = 16 := by
  simp only [keyTail, List.length_drop]
  omega

theorem keyTail_append (before : List UInt8) {tail : List UInt8}
    (h : tail.length = 16) : keyTail (before ++ tail) = tail := by
  have hoffset : (before ++ tail).length - 16 = before.length := by
    simp [h]
  unfold keyTail
  rw [hoffset, List.drop_left]

theorem readIndex_isSome {oid : ObjectId} :
    (readIndex oid).isSome ↔ 12 ≤ oid.length := by
  simp only [readIndex, Option.isSome_map]
  exact readOctets_isSome oid 8 4

end Lorica
