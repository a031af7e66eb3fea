import Lorica.AddInterface

/-!
What `add_interface` leaves in the table. The loop is a list of registrations,
one for each accessor and operation of the interface and of its direct bases;
what a name is registered with, what is returned and what is found afterwards
is read off that list.
-/

namespace Lorica

open Machine

namespace OperationTable

variable {ι T : Type} {cmp : Strcmp} {prims : Primitives T} {repo : Repository ι T}

/-! ## The loop as a list of registrations -/

structure Registration (T : Type) where
  isAttribute : Bool
  name : String
  list : ArgList T
  ids : List String

section Lists

variable (prims : Primitives T) (repo : Repository ι T)

def attributeRegistrations (ids : List String) (attr : AttributeDef T) :
    List (Registration T) :=
  ⟨true, "_get_" ++ attr.name, getter attr, ids⟩ ::
    if attr.readonly then [] else [⟨true, "_set_" ++ attr.name, setter prims attr, ids⟩]

def operationRegistration (ids : List String) (op : OperationDef T) : Registration T :=
  ⟨false, op.name, argList op, ids⟩

def pseudoRegistrations (repId : String) : List (Registration T) :=
  [⟨false, "_is_a", prims.isA, [repId]⟩,
    ⟨false, "_non_existent", prims.nonExistent, [repId]⟩]

def memberRegistrations (ids : List String) (I : ι) : List (Registration T) :=
  (repo.attributes I).flatMap (attributeRegistrations prims ids) ++
    (repo.operations I).map (operationRegistration ids)

def levelRegistrations (I : ι) (derived : List String) : List (Registration T) :=
  (if derived = [] then pseudoRegistrations prims (repo.id I) else []) ++
    memberRegistrations prims repo (repo.id I :: derived) I

def levelsRegistrations : ι → List String → List ι → List (Registration T)
  | I, derived, [] => levelRegistrations prims repo I derived
  | I, derived, base :: bases =>
      levelRegistrations prims repo I derived ++
        levelsRegistrations base (derived ++ [repo.id I]) bases

def registrations (I : ι) : List (Registration T) :=
  levelsRegistrations prims repo I [] (repo.baseInterfaces I)

end Lists

/-- The test the loop makes for a registration. -/
def Registration.wanted (d : Desired) (r : Registration T) : Bool :=
  if r.isAttribute then d.accessor r.name else d.operation r.name

def note (cmp : Strcmp) (d : Desired) (p : Progress T) (r : Registration T) :
    Progress T :=
  p.register cmp r.name r.list r.ids (r.wanted d)

variable {d : Desired} {p : Progress T}

theorem addAttribute_eq (ids : List String) (attr : AttributeDef T) :
    addAttribute cmp prims d ids p attr =
      (attributeRegistrations prims ids attr).foldl (note cmp d) p := by
  unfold addAttribute attributeRegistrations
  cases attr.readonly <;> rfl

theorem keepIf_eq_register (name repId : String) (l : ArgList T) (wanted : Bool) :
    p.keepIf wanted (p.table.addPseudo cmp name repId l) =
      p.register cmp name l [repId] wanted := by
  have htable :
      (if wanted then (p.table.addPseudo cmp name repId l).2
        else (p.table.addPseudo cmp name repId l).2.removeRef p.table.fresh) =
        p.table.register cmp name l [repId] wanted :=
    addPseudo_eq_register name repId l wanted
  cases wanted with
  | false => exact congrArg (Progress.mk p.result) htable
  | true => exact congrArg (Progress.mk (some p.table.fresh)) htable

theorem addPseudos_eq (repId : String) :
    addPseudos cmp prims d repId p =
      (pseudoRegistrations prims repId).foldl (note cmp d) p := by
  simp only [addPseudos, addIsA, addNonExistent, keepIf_eq_register]
  rfl

theorem addLevel_eq (I : ι) (derived : List String) :
    addLevel cmp prims repo d I derived p =
      (levelRegistrations prims repo I derived).foldl (note cmp d) p := by
  have hattributes : ∀ (ids : List String) (attributes : List (AttributeDef T)) p,
      attributes.foldl (addAttribute cmp prims d ids) p =
        (attributes.flatMap (attributeRegistrations prims ids)).foldl (note cmp d) p := by
    intro ids attributes p
    have hone : addAttribute cmp prims d ids = fun p attr =>
        (attributeRegistrations prims ids attr).foldl (note cmp d) p := by
      funext p attr
      exact addAttribute_eq ids attr
    rw [List.foldl_flatMap, hone]
  have hoperations : ∀ (ids : List String) (operations : List (OperationDef T)) p,
      operations.foldl (addOperation cmp d ids) p =
        (operations.map (operationRegistration ids)).foldl (note cmp d) p := by
    intro ids operations p
    rw [List.foldl_map]
    rfl
  simp only [addLevel, levelRegistrations, memberRegistrations, hattributes,
    hoperations, List.foldl_append]
  split
  · rw [addPseudos_eq]
  · rfl

theorem addLevels_eq (I : ι) (derived : List String) (bases : List ι) :
    addLevels cmp prims repo d I derived bases p =
      (levelsRegistrations prims repo I derived bases).foldl (note cmp d) p := by
  induction bases generalizing I derived p with
  | nil =>
      simp only [addLevels, levelsRegistrations]
      exact addLevel_eq I derived
  | cons base bases ih =>
      simp only [addLevels, levelsRegistrations, List.foldl_append]
      rw [addLevel_eq, ih]

theorem addInterface_eq {I : ι} {desired : Option String} {t : OperationTable T}
    {wantAttribute : Bool} (h : Desired.wantsAttribute desired = .ok wantAttribute) :
    addInterface cmp prims repo I desired t =
      let p := (registrations prims repo I).foldl (note cmp ⟨desired, wantAttribute⟩)
        ⟨none, t⟩
      .ok (p.result, p.table) := by
  unfold addInterface
  rw [h]
  simp only [addLevels_eq]
  rfl

/-! ## What a list of registrations leaves -/

section Notes

variable (regs : List (Registration T))

theorem notes_fresh (p : Progress T) :
    (regs.foldl (note cmp d) p).table.fresh = p.table.fresh + regs.length := by
  induction regs generalizing p with
  | nil => rfl
  | cons r regs ih =>
      rw [List.foldl_cons, ih, List.length_cons]
      simp only [note, Progress.register, register_fresh]
      omega

theorem notes_lists (p : Progress T) {b : Nat} (hb : b < p.table.fresh) :
    (regs.foldl (note cmp d) p).table.lists b = p.table.lists b := by
  induction regs generalizing p with
  | nil => rfl
  | cons r regs ih =>
      have hnext : b < (note cmp d p r).table.fresh := by
        simp only [note, Progress.register, register_fresh]
        omega
      rw [List.foldl_cons, ih _ hnext]
      exact register_lists_ne _ _ _ _ (by omega)

variable {regs}

theorem notes_chain_absent {o : String} (h : o ∉ regs.map Registration.name)
    (p : Progress T) :
    (regs.foldl (note cmp d) p).table.chain cmp o = p.table.chain cmp o := by
  induction regs generalizing p with
  | nil => rfl
  | cons r regs ih =>
      rw [List.map_cons, List.mem_cons, not_or] at h
      rw [List.foldl_cons, ih h.2]
      exact register_chain_ne _ _ _ _ h.1

theorem wanted_name {r : Registration T} (h : r.wanted d = true) : d.op = some r.name := by
  unfold Registration.wanted Desired.accessor Desired.operation at h
  split at h
  · exact beq_iff_eq.mp (Bool.and_eq_true_iff.mp h).2
  · exact beq_iff_eq.mp (Bool.and_eq_true_iff.mp h).2

theorem notes_result_absent {o : String} (ho : d.op = some o)
    (h : o ∉ regs.map Registration.name) (p : Progress T) :
    (regs.foldl (note cmp d) p).result = p.result := by
  induction regs generalizing p with
  | nil => rfl
  | cons r regs ih =>
      rw [List.map_cons, List.mem_cons, not_or] at h
      have hwanted : r.wanted d = false := by
        cases hr : r.wanted d with
        | false => rfl
        | true =>
            rw [wanted_name hr, Option.some.injEq] at ho
            exact absurd ho.symm h.1
      rw [List.foldl_cons, ih h.2]
      simp only [note, Progress.register, hwanted, Bool.false_eq_true, if_false]

/-- The one registration of a name decides what is returned for it and what is
found under it afterwards. -/
theorem notes_present {r : Registration T} (hr : r ∈ regs)
    (hnodup : (regs.map Registration.name).Nodup) (hwanted : r.wanted d = true)
    (hids : r.ids ≠ []) (p : Progress T) :
    ∃ a n, p.table.fresh ≤ a ∧
      (regs.foldl (note cmp d) p).result = some a ∧
      (regs.foldl (note cmp d) p).table.chain cmp r.name =
        p.table.chain cmp r.name ++ r.ids.map (·, a) ∧
      (regs.foldl (note cmp d) p).table.lists a = some (r.list, n) := by
  obtain ⟨pre, post, rfl⟩ := List.append_of_mem hr
  rw [List.map_append, List.map_cons, List.nodup_append] at hnodup
  obtain ⟨-, htail, hdisjoint⟩ := hnodup
  have hpost : r.name ∉ post.map Registration.name := (List.nodup_cons.mp htail).1
  have hpre : r.name ∉ pre.map Registration.name := fun h =>
    hdisjoint _ h _ (List.mem_cons_self ..) rfl
  set q := pre.foldl (note cmp d) p with hq
  have hfresh : p.table.fresh ≤ q.table.fresh := by
    rw [hq, notes_fresh]
    omega
  have hchain : q.table.chain cmp r.name = p.table.chain cmp r.name :=
    notes_chain_absent hpre p
  refine ⟨q.table.fresh, r.ids.length + if r.wanted d then 1 else 0, hfresh, ?_, ?_, ?_⟩
  · rw [List.foldl_append, List.foldl_cons, notes_result_absent (wanted_name hwanted) hpost]
    simp only [note, Progress.register, hwanted, if_true, ← hq]
  · rw [List.foldl_append, List.foldl_cons, notes_chain_absent hpost, ← hq, ← hchain]
    exact register_chain_self ..
  · have hlater : q.table.fresh < (note cmp d q r).table.fresh := by
      simp only [note, Progress.register, register_fresh]
      omega
    rw [List.foldl_append, List.foldl_cons, ← hq, notes_lists post _ hlater]
    exact register_lists_self _ _ _ _ hids

end Notes

/-! ## What is registered -/

theorem getter_ne_setter (a b : String) : "_get_" ++ a ≠ "_set_" ++ b := by
  intro h
  have hlist := congrArg String.toList h
  simp at hlist

theorem Declares.name_cases {I : ι} {o : String} {sig : Signature T}
    (hrepo : WellFormed repo) (h : Declares prims repo I o sig) :
    (∃ name, o = "_get_" ++ name ∨ o = "_set_" ++ name) ∨ o.toList.head? ≠ some '_' := by
  cases h with
  | get h => exact .inl ⟨_, .inl rfl⟩
  | set h hmode => exact .inl ⟨_, .inr rfl⟩
  | operation h => exact .inr (hrepo.identifiers I _ h)

theorem Pseudo.name_cases {o : String} {sig : Signature T} (h : Pseudo prims o sig) :
    o = "_is_a" ∨ o = "_non_existent" := by
  cases h with
  | isA => exact .inl rfl
  | nonExistent => exact .inr rfl

theorem Declares.not_pseudo {I : ι} {o : String} {sig sig' : Signature T}
    (hrepo : WellFormed repo) (h : Declares prims repo I o sig) :
    ¬ Pseudo prims o sig' := by
  intro hpseudo
  have hname := hpseudo.name_cases
  rcases h.name_cases hrepo with ⟨name, hattr⟩ | hhead
  · rcases hname with rfl | rfl <;> rcases hattr with hattr | hattr <;>
      simpa using congrArg String.toList hattr
  · rcases hname with rfl | rfl <;> simp at hhead

/-- Among what one interface inherits, a name says who declares it and how. -/
theorem Declares.unique {I A B : ι} {o : String} {sig sig' : Signature T}
    (hrepo : WellFormed repo) (hA : Relation.ReflTransGen (Base repo) I A)
    (hB : Relation.ReflTransGen (Base repo) I B)
    (h : Declares prims repo A o sig) (h' : Declares prims repo B o sig') :
    A = B ∧ sig = sig' := by
  have hattribute : ∀ a ∈ repo.attributes A, ∀ b ∈ repo.attributes B,
      a.name = b.name → A = B ∧ a = b := by
    intro a ha b hb hname
    obtain rfl := hrepo.inheritedAttributes I A B hA hB a ha b hb hname
    exact ⟨rfl, List.inj_on_of_nodup_map (hrepo.attributes A) ha hb hname⟩
  have hoperation : ∀ a ∈ repo.operations A, ∀ b ∈ repo.operations B,
      a.name = b.name → A = B ∧ a = b := by
    intro a ha b hb hname
    obtain rfl := hrepo.inheritedOperations I A B hA hB a ha b hb hname
    exact ⟨rfl, List.inj_on_of_nodup_map (hrepo.operations A) ha hb hname⟩
  generalize ho : o = o' at h'
  cases h with
  | @get a ha =>
      cases h' with
      | @get b hb =>
          obtain ⟨rfl, rfl⟩ := hattribute a ha b hb (by simpa using ho)
          exact ⟨rfl, rfl⟩
      | @set b hb hmode => exact absurd ho (getter_ne_setter _ _)
      | @operation b hb =>
          have hhead := hrepo.identifiers B b hb
          rw [← ho] at hhead
          simp at hhead
  | @set a ha hmode =>
      cases h' with
      | @get b hb => exact absurd ho.symm (getter_ne_setter _ _)
      | @set b hb hmode' =>
          obtain ⟨rfl, rfl⟩ := hattribute a ha b hb (by simpa using ho)
          exact ⟨rfl, rfl⟩
      | @operation b hb =>
          have hhead := hrepo.identifiers B b hb
          rw [← ho] at hhead
          simp at hhead
  | @operation a ha =>
      have hhead := hrepo.identifiers A a ha
      cases h' with
      | @get b hb =>
          rw [ho] at hhead
          simp at hhead
      | @set b hb hmode =>
          rw [ho] at hhead
          simp at hhead
      | @operation b hb =>
          obtain ⟨rfl, rfl⟩ := hoperation a ha b hb ho
          exact ⟨rfl, rfl⟩

theorem describes_create (args : List (T × Flags)) (exceptions : List T) (oneway : Bool)
    (result : Option T) :
    Describes (.create args exceptions oneway result) ⟨result, args, exceptions, oneway⟩ := by
  refine ⟨?_, ?_, ?_, rfl⟩
  · cases result <;> rfl
  · simp [ArgList.create, Arg.init, Function.comp_def]
  · simp [ArgList.create, Arg.init, Function.comp_def]

/-- A registration and the signature it was made from. -/
def Registration.From (S : String → Signature T → Prop) (r : Registration T) : Prop :=
  ∃ sig, S r.name sig ∧ Describes r.list sig

theorem memberRegistrations_from {ids : List String} {I : ι} {r : Registration T}
    (h : r ∈ memberRegistrations prims repo ids I) :
    r.ids = ids ∧ r.From (Declares prims repo I) := by
  rcases List.mem_append.mp h with h | h
  · obtain ⟨attr, hattr, hr⟩ := List.mem_flatMap.mp h
    rcases List.mem_cons.mp hr with rfl | hr
    · exact ⟨rfl, _, .get hattr, describes_create ..⟩
    · cases hmode : attr.readonly with
      | true => simp [hmode] at hr
      | false =>
          simp only [hmode, Bool.false_eq_true, if_false, List.mem_singleton] at hr
          subst hr
          exact ⟨rfl, _, .set hattr hmode, describes_create ..⟩
  · obtain ⟨op, hop, rfl⟩ := List.mem_map.mp h
    exact ⟨rfl, _, .operation hop, describes_create ..⟩

theorem memberRegistrations_has {I : ι} {o : String} {sig : Signature T}
    (h : Declares prims repo I o sig) (ids : List String) :
    ∃ r ∈ memberRegistrations prims repo ids I, r.name = o ∧ Describes r.list sig := by
  cases h with
  | @get attr h =>
      refine ⟨_, List.mem_append_left _ (List.mem_flatMap.mpr ⟨attr, h, List.mem_cons_self ..⟩),
        rfl, describes_create ..⟩
  | @set attr h hmode =>
      refine ⟨⟨true, "_set_" ++ attr.name, setter prims attr, ids⟩,
        List.mem_append_left _ (List.mem_flatMap.mpr ⟨attr, h, ?_⟩), rfl, describes_create ..⟩
      simp [attributeRegistrations, hmode]
  | @operation op h =>
      exact ⟨_, List.mem_append_right _ (List.mem_map.mpr ⟨op, h, rfl⟩), rfl,
        describes_create ..⟩

theorem pseudoRegistrations_from {repId : String} {r : Registration T}
    (h : r ∈ pseudoRegistrations prims repId) :
    r.ids = [repId] ∧ r.From (Pseudo prims) := by
  rcases List.mem_cons.mp h with rfl | h
  · exact ⟨rfl, _, .isA, describes_create ..⟩
  · obtain rfl := List.mem_singleton.mp h
    exact ⟨rfl, _, .nonExistent, describes_create ..⟩

theorem pseudoRegistrations_has {o : String} {sig : Signature T} (h : Pseudo prims o sig)
    (repId : String) :
    ∃ r ∈ pseudoRegistrations prims repId, r.name = o ∧ Describes r.list sig := by
  cases h with
  | isA => exact ⟨_, List.mem_cons_self .., rfl, describes_create ..⟩
  | nonExistent =>
      exact ⟨_, List.mem_cons_of_mem _ (List.mem_cons_self ..), rfl, describes_create ..⟩

/-- Where a registration comes from, and that it is made for the interface the
loop began with. -/
theorem levelRegistrations_from {I : ι} {derived : List String} {r : Registration T}
    {repId : String} (hid : repId ∈ derived ∨ repId = repo.id I)
    (h : r ∈ levelRegistrations prims repo I derived) :
    repId ∈ r.ids ∧
      (derived = [] ∧ r.From (Pseudo prims) ∨ r.From (Declares prims repo I)) := by
  rcases List.mem_append.mp h with h | h
  · split at h
    · next hd =>
        obtain ⟨hids, hfrom⟩ := pseudoRegistrations_from h
        have hrepId : repId = repo.id I := by simpa [hd] using hid
        exact ⟨by simp [hids, hrepId], .inl ⟨hd, hfrom⟩⟩
    · exact absurd h (List.not_mem_nil)
  · obtain ⟨hids, hfrom⟩ := memberRegistrations_from h
    rw [hids, List.mem_cons]
    exact ⟨hid.symm, .inr hfrom⟩

theorem levelsRegistrations_from {I : ι} {derived : List String} {bases : List ι}
    {r : Registration T} {repId : String}
    (hid : repId ∈ derived ∨ repId = repo.id I)
    (h : r ∈ levelsRegistrations prims repo I derived bases) :
    repId ∈ r.ids ∧
      (derived = [] ∧ r.From (Pseudo prims) ∨
        ∃ A ∈ I :: bases, r.From (Declares prims repo A)) := by
  induction bases generalizing I derived with
  | nil =>
      obtain ⟨hids, hfrom⟩ := levelRegistrations_from hid h
      exact ⟨hids, hfrom.imp_right fun hdeclared => ⟨I, List.mem_cons_self .., hdeclared⟩⟩
  | cons base bases ih =>
      rcases List.mem_append.mp h with h | h
      · obtain ⟨hids, hfrom⟩ := levelRegistrations_from hid h
        exact ⟨hids, hfrom.imp_right fun hdeclared => ⟨I, List.mem_cons_self .., hdeclared⟩⟩
      · have hid' : repId ∈ derived ++ [repo.id I] := by
          rw [List.mem_append, List.mem_singleton]
          exact hid
        obtain ⟨hids, hfrom⟩ := ih (.inl hid') h
        refine ⟨hids, .inr ?_⟩
        rcases hfrom with ⟨hnil, -⟩ | ⟨A, hA, hdeclared⟩
        · exact absurd hnil (by simp)
        · exact ⟨A, List.mem_cons_of_mem _ hA, hdeclared⟩

theorem levelsRegistrations_has {I A : ι} {derived : List String} {bases : List ι}
    {o : String} {sig : Signature T} (hA : A ∈ I :: bases)
    (h : Declares prims repo A o sig) :
    ∃ r ∈ levelsRegistrations prims repo I derived bases,
      r.name = o ∧ Describes r.list sig := by
  induction bases generalizing I derived with
  | nil =>
      obtain rfl := List.mem_singleton.mp hA
      obtain ⟨r, hr, hdescribed⟩ := memberRegistrations_has h (repo.id A :: derived)
      exact ⟨r, List.mem_append_right _ hr, hdescribed⟩
  | cons base bases ih =>
      rcases List.mem_cons.mp hA with rfl | hA
      · obtain ⟨r, hr, hdescribed⟩ := memberRegistrations_has h (repo.id A :: derived)
        exact ⟨r, List.mem_append_left _ (List.mem_append_right _ hr), hdescribed⟩
      · obtain ⟨r, hr, hdescribed⟩ := ih hA
        exact ⟨r, List.mem_append_right _ hr, hdescribed⟩

theorem memberRegistrations_nodup (hrepo : WellFormed repo) (ids : List String) (I : ι) :
    ((memberRegistrations prims repo ids I).map Registration.name).Nodup := by
  have hattributes : (((repo.attributes I).flatMap (attributeRegistrations prims ids)).map
      Registration.name).Nodup := by
    rw [List.map_flatMap, List.nodup_flatMap]
    constructor
    · intro attr _
      cases hmode : attr.readonly with
      | true => simp [attributeRegistrations, hmode]
      | false => simp [attributeRegistrations, hmode]
    · have hnames := List.pairwise_map.mp (hrepo.attributes I)
      refine hnames.imp ?_
      intro a b hne name ha hb
      have hname : ∀ attr : AttributeDef T,
          name ∈ (attributeRegistrations prims ids attr).map Registration.name →
          name = "_get_" ++ attr.name ∨ name = "_set_" ++ attr.name := by
        intro attr h
        unfold attributeRegistrations at h
        split at h
        · exact .inl (by simpa using h)
        · simpa using h
      rcases hname a ha with rfl | rfl <;> rcases hname b hb with h | h
      · exact hne (by simpa using h)
      · exact getter_ne_setter _ _ h
      · exact getter_ne_setter _ _ h.symm
      · exact hne (by simpa using h)
  have hoperations : (((repo.operations I).map (operationRegistration ids)).map
      Registration.name).Nodup := by
    rw [List.map_map]
    exact hrepo.operations I
  unfold memberRegistrations
  rw [List.map_append, List.nodup_append]
  refine ⟨hattributes, hoperations, ?_⟩
  intro name hname name' hname' heq
  simp only [List.mem_map, List.mem_flatMap] at hname hname'
  obtain ⟨r, ⟨attr, -, hr⟩, rfl⟩ := hname
  obtain ⟨r', ⟨op, hop, rfl⟩, rfl⟩ := hname'
  have hhead := hrepo.identifiers I op hop
  have hopname : op.name = r.name := heq.symm
  rw [hopname] at hhead
  unfold attributeRegistrations at hr
  split at hr
  · obtain rfl := List.mem_singleton.mp hr
    simp at hhead
  · rcases List.mem_cons.mp hr with rfl | hr
    · simp at hhead
    · obtain rfl := List.mem_singleton.mp hr
      simp at hhead

theorem levelRegistrations_nodup (hrepo : WellFormed repo) (I : ι) (derived : List String) :
    ((levelRegistrations prims repo I derived).map Registration.name).Nodup := by
  unfold levelRegistrations
  rw [List.map_append, List.nodup_append]
  refine ⟨?_, memberRegistrations_nodup hrepo _ I, ?_⟩
  · split
    · simp [pseudoRegistrations]
    · exact List.nodup_nil
  · rintro name hname name' hname' rfl
    obtain ⟨r, hr, rfl⟩ := List.mem_map.mp hname
    obtain ⟨r', hr', heq⟩ := List.mem_map.mp hname'
    split at hr
    · obtain ⟨-, sig, hpseudo, -⟩ := pseudoRegistrations_from hr
      obtain ⟨-, sig', hdeclared, -⟩ := memberRegistrations_from hr'
      rw [← heq] at hpseudo
      exact hdeclared.not_pseudo hrepo hpseudo
    · exact absurd hr (List.not_mem_nil)

/-- No name is registered twice: what the rounds handle are different
interfaces inherited by one. -/
theorem levelsRegistrations_nodup (hrepo : WellFormed repo) {root I : ι}
    {derived : List String} {bases : List ι} (hnodup : (I :: bases).Nodup)
    (hbases : ∀ A ∈ I :: bases, Relation.ReflTransGen (Base repo) root A) :
    ((levelsRegistrations prims repo I derived bases).map Registration.name).Nodup := by
  induction bases generalizing I derived with
  | nil => exact levelRegistrations_nodup hrepo I derived
  | cons base bases ih =>
      obtain ⟨hI, hrest⟩ := List.nodup_cons.mp hnodup
      simp only [levelsRegistrations, List.map_append, List.nodup_append]
      refine ⟨levelRegistrations_nodup hrepo I derived,
        ih hrest fun A hA => hbases A (List.mem_cons_of_mem _ hA), ?_⟩
      rintro name hname name' hname' rfl
      obtain ⟨r, hr, rfl⟩ := List.mem_map.mp hname
      obtain ⟨r', hr', heq⟩ := List.mem_map.mp hname'
      obtain ⟨-, hfrom⟩ := levelRegistrations_from (.inr rfl) hr
      obtain ⟨-, hfrom'⟩ := levelsRegistrations_from (.inr rfl) hr'
      obtain ⟨hnil, -⟩ | ⟨A, hA, sig', hdeclared', -⟩ := hfrom'
      · exact absurd hnil (by simp)
      · rw [heq] at hdeclared'
        obtain ⟨-, sig, hpseudo, -⟩ | ⟨sig, hdeclared, -⟩ := hfrom
        · exact hdeclared'.not_pseudo hrepo hpseudo
        · obtain ⟨rfl, -⟩ := Declares.unique hrepo (hbases I (List.mem_cons_self ..))
            (hbases A (List.mem_cons_of_mem _ hA)) hdeclared hdeclared'
          exact hI hA

/-- `I` itself or one of its direct bases. -/
def Near (repo : Repository ι T) (I A : ι) : Prop := A = I ∨ Base repo I A

theorem Near.inherited {I A : ι} (h : Near repo I A) :
    Relation.ReflTransGen (Base repo) I A := by
  rcases h with rfl | h
  · exact .refl
  · exact .single h

theorem registrations_nodup (hrepo : WellFormed repo) (I : ι) :
    ((registrations prims repo I).map Registration.name).Nodup := by
  apply levelsRegistrations_nodup hrepo
  · rw [List.nodup_cons]
    exact ⟨fun h => hrepo.acyclic I (.single h), hrepo.bases I⟩
  · intro A hA
    rw [List.mem_cons] at hA
    exact Near.inherited hA

theorem registrations_from {I : ι} {r : Registration T} (h : r ∈ registrations prims repo I) :
    repo.id I ∈ r.ids ∧
      (r.From (Pseudo prims) ∨ ∃ A, Near repo I A ∧ r.From (Declares prims repo A)) := by
  obtain ⟨hids, hfrom⟩ := levelsRegistrations_from (.inr rfl) h
  refine ⟨hids, ?_⟩
  rcases hfrom with ⟨-, hpseudo⟩ | ⟨A, hA, hdeclared⟩
  · exact .inl hpseudo
  · exact .inr ⟨A, List.mem_cons.mp hA, hdeclared⟩

theorem registrations_has {I : ι} {o : String} {sig : Signature T}
    (h : Pseudo prims o sig ∨ ∃ A, Near repo I A ∧ Declares prims repo A o sig) :
    ∃ r ∈ registrations prims repo I, r.name = o ∧ Describes r.list sig := by
  rcases h with hpseudo | ⟨A, hA, hdeclared⟩
  · obtain ⟨r, hr, hdescribed⟩ := pseudoRegistrations_has hpseudo (repo.id I)
    refine ⟨r, ?_, hdescribed⟩
    unfold registrations
    cases repo.baseInterfaces I with
    | nil => exact List.mem_append_left _ (by simpa using hr)
    | cons base bases =>
        exact List.mem_append_left _ (List.mem_append_left _ (by simpa using hr))
  · exact levelsRegistrations_has (List.mem_cons.mpr hA) hdeclared

theorem levelsRegistrations_mem {I : ι} {derived : List String} {bases : List ι}
    {r : Registration T} (h : r ∈ levelsRegistrations prims repo I derived bases) :
    (∃ repId, r ∈ pseudoRegistrations prims repId) ∨
      ∃ A ids, r ∈ memberRegistrations prims repo ids A := by
  have hlevel : ∀ {A : ι} {derived : List String},
      r ∈ levelRegistrations prims repo A derived →
      (∃ repId, r ∈ pseudoRegistrations prims repId) ∨
        ∃ A ids, r ∈ memberRegistrations prims repo ids A := by
    intro A derived h
    rcases List.mem_append.mp h with h | h
    · split at h
      · exact .inl ⟨_, h⟩
      · exact absurd h (List.not_mem_nil)
    · exact .inr ⟨A, _, h⟩
  induction bases generalizing I derived with
  | nil => exact hlevel h
  | cons base bases ih =>
      rcases List.mem_append.mp h with h | h
      · exact hlevel h
      · exact ih h

/-- The caller's test for attributes agrees with what is registered under the
name it asks for. -/
theorem wantsAttribute_of_mem (hrepo : WellFormed repo) {I : ι} {r : Registration T}
    (h : r ∈ registrations prims repo I) :
    Desired.wantsAttribute (some r.name) = .ok r.isAttribute := by
  rcases levelsRegistrations_mem h with ⟨repId, h⟩ | ⟨A, ids, h⟩
  · rcases List.mem_cons.mp h with rfl | h
    · simp [Desired.wantsAttribute]
    · obtain rfl := List.mem_singleton.mp h
      simp [Desired.wantsAttribute]
  · rcases List.mem_append.mp h with h | h
    · obtain ⟨attr, -, hr⟩ := List.mem_flatMap.mp h
      unfold attributeRegistrations at hr
      split at hr
      · obtain rfl := List.mem_singleton.mp hr
        simp [Desired.wantsAttribute]
      · rcases List.mem_cons.mp hr with rfl | hr
        · simp [Desired.wantsAttribute]
        · obtain rfl := List.mem_singleton.mp hr
          simp [Desired.wantsAttribute]
    · obtain ⟨op, hop, rfl⟩ := List.mem_map.mp h
      have hhead := hrepo.identifiers A op hop
      unfold Desired.wantsAttribute operationRegistration
      dsimp only
      split
      · next heq => simp [heq] at hhead
      · next heq => simp [heq] at hhead
      · rfl

/-! ## Runs of a table -/

/-- A call of the table, or an evaluator noting in a list it looked up which
arguments have object references in them. The repository may change between
calls. -/
inductive TableOp (ι T : Type) where
  | find (opname repId : String)
  | addInterface (repo : Repository ι T) (I : ι) (desired : Option String)
  | examined (a : Nat) (l : ArgList T)

section Runs

variable (cmp : Strcmp) (prims : Primitives T)

def tableStep (t : OperationTable T) : TableOp ι T → Option (OperationTable T)
  | .find opname repId => some (t.find cmp opname repId).2
  | .addInterface repo I desired =>
      (addInterface cmp prims repo I desired t).toOption.map Prod.snd
  | .examined a l =>
      some { t with lists := fun b =>
        if b = a then (t.lists b).map fun c => (l, c.2) else t.lists b }

def tableSystem (ι : Type) : System (OperationTable T) (TableOp ι T) where
  init t := t = OperationTable.create cmp prims
  step := tableStep cmp prims

/-- The entries of every chain point to lists made before, and `Q` holds of the
id, the name, the list and its count. -/
def Entries (cmp : Strcmp) (Q : String → String → ArgList T → Int → Prop)
    (t : OperationTable T) : Prop :=
  ∀ opname, ∀ e ∈ t.chain cmp opname,
    e.2 < t.fresh ∧ ∃ l n, t.lists e.2 = some (l, n) ∧ Q e.1 opname l n

/-- Every list the table points to is there, with a count that keeps it
there. -/
def Live (t : OperationTable T) : Prop :=
  ∀ opname, ∀ e ∈ t.chain cmp opname,
    e.2 < t.fresh ∧ ∃ l n, t.lists e.2 = some (l, n) ∧ 1 ≤ n

section Registering

variable {cmp : Strcmp} {Q : String → String → ArgList T → Int → Prop} {t : OperationTable T}

theorem entries_empty : (empty : OperationTable T).Entries cmp Q := by
  intro opname e he
  exact absurd he (List.not_mem_nil)

/-- The new entries are for the name and the ids of the registration. -/
theorem Entries.register (h : t.Entries cmp Q) {name : String} {l : ArgList T}
    {ids : List String} (hids : ids ≠ []) (hnew : ∀ r ∈ ids, ∀ n, 1 ≤ n → Q r name l n)
    (wanted : Bool) : (t.register cmp name l ids wanted).Entries cmp Q := by
  have hold : ∀ opname, ∀ e ∈ t.chain cmp opname,
      e.2 < (t.register cmp name l ids wanted).fresh ∧
      ∃ l' n, (t.register cmp name l ids wanted).lists e.2 = some (l', n) ∧
        Q e.1 opname l' n := by
    intro opname e he
    obtain ⟨hlt, hlists⟩ := h opname e he
    rw [register_fresh, register_lists_ne _ _ _ _ (by omega)]
    exact ⟨by omega, hlists⟩
  intro opname e he
  rcases eq_or_ne opname name with rfl | hne
  · rw [register_chain_self, List.mem_append] at he
    rcases he with he | he
    · exact hold opname e he
    · obtain ⟨repId, hrepId, rfl⟩ := List.mem_map.mp he
      have hlen : 0 < ids.length := List.length_pos_iff.mpr hids
      refine ⟨by rw [register_fresh]; omega, l, _, register_lists_self _ _ _ _ hids, ?_⟩
      apply hnew repId hrepId
      split <;> omega
  · rw [register_chain_ne _ _ _ _ hne] at he
    exact hold opname e he

theorem Entries.notes {regs : List (Registration T)} {p : Progress T} {d : Desired}
    (h : p.table.Entries cmp Q)
    (hregs : ∀ r ∈ regs, r.ids ≠ [] ∧ ∀ k ∈ r.ids, ∀ n, 1 ≤ n → Q k r.name r.list n) :
    (regs.foldl (note cmp d) p).table.Entries cmp Q := by
  induction regs generalizing p with
  | nil => exact h
  | cons r regs ih =>
      obtain ⟨hids, hnew⟩ := hregs r (List.mem_cons_self ..)
      apply ih
      · exact h.register hids hnew _
      · exact fun r' hr' => hregs r' (List.mem_cons_of_mem _ hr')

end Registering

variable {cmp prims} {t : OperationTable T}

theorem live_iff_entries : t.Live cmp ↔ t.Entries cmp fun _ _ _ n => 1 ≤ n := Iff.rfl

theorem Live.register (h : t.Live cmp) (name : String) (l : ArgList T)
    {ids : List String} (hids : ids ≠ []) (wanted : Bool) :
    (t.register cmp name l ids wanted).Live cmp :=
  live_iff_entries.mpr ((live_iff_entries.mp h).register hids (fun _ _ _ hn => hn) wanted)

theorem Live.notes {regs : List (Registration T)} {p : Progress T}
    (h : p.table.Live cmp) (hids : ∀ r ∈ regs, r.ids ≠ []) (d : Desired) :
    (regs.foldl (note cmp d) p).table.Live cmp :=
  live_iff_entries.mpr
    ((live_iff_entries.mp h).notes fun r hr => ⟨hids r hr, fun _ _ _ hn => hn⟩)

/-- A list is only counted up, or its flags are set. -/
theorem Live.lists {t' : OperationTable T} (h : t.Live cmp) (hhead : t'.head = t.head)
    (hfresh : t'.fresh = t.fresh)
    (hlists : ∀ b l n, t.lists b = some (l, n) → ∃ l' n', t'.lists b = some (l', n') ∧ n ≤ n') :
    t'.Live cmp := by
  intro opname e he
  rw [chain, hhead] at he
  obtain ⟨hlt, l, n, hl, hn⟩ := h opname e he
  obtain ⟨l', n', hl', hle⟩ := hlists _ l n hl
  exact ⟨hfresh ▸ hlt, l', n', hl', hn.trans hle⟩

theorem create_eq : OperationTable.create cmp prims =
    (empty.register cmp "_is_a" prims.isA ["IDL:org.omg/CORBA/Object:1.0"] false).register cmp
      "_non_existent" prims.nonExistent ["IDL:org.omg/CORBA/Object:1.0"] false := by
  rw [← addPseudo_eq_register, ← addPseudo_eq_register]
  rfl

theorem live_create : (OperationTable.create cmp prims).Live cmp := by
  rw [create_eq]
  have hempty : (empty : OperationTable T).Live cmp := live_iff_entries.mpr entries_empty
  exact (hempty.register _ _ (by simp) _).register _ _ (by simp) _

theorem addRef_lists {a b : Nat} {l : ArgList T} {n : Int} (h : t.lists b = some (l, n)) :
    ∃ l' n', (t.addRef a).lists b = some (l', n') ∧ n ≤ n' := by
  by_cases hb : b = a
  · exact ⟨l, n + 1, by simp [addRef, hb ▸ h, hb], by omega⟩
  · exact ⟨l, n, by simp [addRef, h, hb], le_refl n⟩

theorem Live.step (h : t.Live cmp) {op : TableOp ι T} {t' : OperationTable T}
    (hstep : tableStep cmp prims t op = some t') : t'.Live cmp := by
  cases op with
  | find opname repId =>
      obtain rfl := Option.some.inj hstep
      unfold find
      split
      · exact h
      · split
        · exact h
        · exact h.lists rfl rfl fun b l n hl => addRef_lists hl
  | addInterface repo I desired =>
      cases hwant : Desired.wantsAttribute desired with
      | error cause => simp [tableStep, addInterface, hwant, Except.toOption, bind, Except.bind] at hstep
      | ok want =>
          simp only [tableStep, addInterface_eq hwant, Except.toOption, Option.map_some,
            Option.some.injEq] at hstep
          subst hstep
          apply Live.notes h
          intro r hr
          exact List.ne_nil_of_mem (registrations_from hr).1
  | examined a l =>
      obtain rfl := Option.some.inj hstep
      refine h.lists rfl rfl fun b l' n hl => ?_
      by_cases hb : b = a
      · exact ⟨l, n, by simp [hb ▸ hl, hb], le_refl n⟩
      · exact ⟨l', n, by simp [hl, hb], le_refl n⟩

/-- No run leaves a dangling pointer in the table. -/
theorem live_of_reachable (h : (tableSystem cmp prims ι).Reachable t) : t.Live cmp := by
  apply System.Reach.invariant _ _ h
  · rintro s rfl
    exact live_create
  · intro s label s' hs _ hstep
    exact hs.step hstep

end Runs

/-! ## Asking for an operation -/

/-- What a caller of `add_interface (I, o)` relies on: a list is returned, it
describes the operation, and looking the operation up finds the same list. -/
def AddsSignature (cmp : Strcmp) (prims : Primitives T) (repo : Repository ι T) (I : ι)
    (o : String) (sig : Signature T) (t : OperationTable T) : Prop :=
  ∃ a t', addInterface cmp prims repo I (some o) t = .ok (some a, t') ∧
    (∃ l n, t'.lists a = some (l, n) ∧ Describes l sig) ∧
    (t'.find cmp o (repo.id I)).1 = some a

theorem lookup_map_const {k : String} {ids : List String} (h : k ∈ ids) (a : Nat) :
    (ids.map (·, a)).lookup k = some a := by
  induction ids with
  | nil => exact absurd h (List.not_mem_nil)
  | cons repId ids ih =>
      by_cases hk : k = repId
      · simp [hk]
      · have hmem : k ∈ ids := (List.mem_cons.mp h).resolve_left hk
        rw [List.map_cons, List.lookup_cons, beq_false_of_ne hk]
        exact ih hmem

/-- What the table finds for the caller was there before the new list was
made. -/
theorem Live.find_ne {t : OperationTable T} (h : t.Live cmp) {o repId : String} {a : Nat}
    (ha : t.fresh ≤ a) : (t.chain cmp o).lookup repId ≠ some a := by
  intro hfound
  have hmem : (repId, a) ∈ t.chain cmp o := by
    obtain ⟨l₁, l₂, heq, -⟩ := List.lookup_eq_some_iff.mp hfound
    simp [heq]
  have hlt := (h o _ hmem).1
  dsimp only at hlt
  omega

variable {I : ι} {o : String} {sig : Signature T} {t : OperationTable T}

/-- A name that is registered is returned with the list made for it, and found
afterwards unless an older list hides it. -/
theorem addsSignature_of_mem (hrepo : WellFormed repo) (ht : t.Live cmp)
    {r : Registration T} (hr : r ∈ registrations prims repo I)
    (hdescribed : Describes r.list sig) :
    AddsSignature cmp prims repo I r.name sig t ↔
      (t.find cmp r.name (repo.id I)).1 = none := by
  have hwant := wantsAttribute_of_mem hrepo hr
  have hwanted : r.wanted ⟨some r.name, r.isAttribute⟩ = true := by
    cases h : r.isAttribute <;> simp [Registration.wanted, Desired.accessor, Desired.operation, h]
  have hid := (registrations_from hr).1
  obtain ⟨a, n, ha, hresult, hchain, hlist⟩ := @notes_present _ cmp _ _ _ hr
    (registrations_nodup hrepo I) hwanted (List.ne_nil_of_mem hid) ⟨none, t⟩
  have hold : (t.chain cmp r.name).lookup (repo.id I) ≠ some a := ht.find_ne ha
  have hfound := SteeredTree.lookup_append_fresh (lookup_map_const hid a) hold
  unfold AddsSignature
  rw [addInterface_eq hwant, find_eq, ← hfound, ← hchain]
  constructor
  · rintro ⟨a', t', hadd, -, hfind⟩
    obtain ⟨hsome, rfl⟩ := Prod.mk.inj (Except.ok.inj hadd)
    obtain rfl := Option.some.inj (hresult.symm.trans hsome)
    rwa [find_eq] at hfind
  · intro hlookup
    refine ⟨a, _, congrArg Except.ok (Prod.ext hresult rfl), ⟨_, n, hlist, hdescribed⟩, ?_⟩
    rw [find_eq]
    exact hlookup

/-- `add_interface` delivers an operation of the interface exactly when the
table had none to offer and the operation is declared by the interface itself
or by a direct base, or is one that every object has. -/
theorem addsSignature_iff (ht : (tableSystem cmp prims ι).Reachable t)
    (hrepo : WellFormed repo) (hvisible : Visible prims repo I o sig) :
    AddsSignature cmp prims repo I o sig t ↔
      (t.find cmp o (repo.id I)).1 = none ∧
      (Pseudo prims o sig ∨ ∃ A, Near repo I A ∧ Declares prims repo A o sig) := by
  have hlive := live_of_reachable ht
  constructor
  · intro hadds
    have hmem : o ∈ (registrations prims repo I).map Registration.name := by
      by_contra habsent
      obtain ⟨a, t', hadd, -⟩ := hadds
      cases hwant : Desired.wantsAttribute (some o) with
      | error cause => simp [addInterface, hwant, bind, Except.bind] at hadd
      | ok want =>
          rw [addInterface_eq hwant] at hadd
          have hresult := (Prod.mk.inj (Except.ok.inj hadd)).1
          rw [notes_result_absent rfl habsent] at hresult
          exact absurd hresult (by simp)
    obtain ⟨r, hr, rfl⟩ := List.mem_map.mp hmem
    obtain ⟨-, hfrom⟩ := registrations_from hr
    have hnear : Pseudo prims r.name sig ∨
        ∃ A, Near repo I A ∧ Declares prims repo A r.name sig := by
      rcases hvisible with hpseudo | ⟨A, hA, hdeclared⟩
      · exact .inl hpseudo
      · rcases hfrom with ⟨sig', hpseudo, -⟩ | ⟨B, hB, sig', hdeclared', -⟩
        · exact absurd hpseudo (hdeclared.not_pseudo hrepo)
        · obtain ⟨rfl, -⟩ := Declares.unique hrepo hA hB.inherited hdeclared hdeclared'
          exact .inr ⟨A, hB, hdeclared⟩
    obtain ⟨r', hr', hname, hdescribed⟩ := registrations_has hnear
    rw [← hname] at hadds ⊢
    exact ⟨(addsSignature_of_mem hrepo hlive hr' hdescribed).mp hadds, by rwa [hname]⟩
  · rintro ⟨hfind, hnear⟩
    obtain ⟨r, hr, rfl, hdescribed⟩ := registrations_has hnear
    exact (addsSignature_of_mem hrepo hlive hr hdescribed).mpr hfind

/-! Three interfaces in a line, with one operation at the top. -/

def lineRepository : Repository Nat Nat where
  id n := if n = 0 then "IDL:I:1.0" else if n = 1 then "IDL:B:1.0" else "IDL:A:1.0"
  baseInterfaces n := if n < 2 then [n + 1] else []
  attributes _ := []
  operations n := if n = 2 then [⟨"op", false, 0, [], []⟩] else []

def linePrimitives : Primitives Nat := ⟨0, 1, 2⟩

theorem lineRepository_wellFormed : WellFormed lineRepository where
  acyclic A h := by
    have hlt : ∀ {A B}, Relation.TransGen (Base lineRepository) A B → A < B := by
      intro A B h
      induction h with
      | single h =>
          simp only [Base, lineRepository] at h
          split at h <;> simp at h
          omega
      | tail _ h ih =>
          simp only [Base, lineRepository] at h
          split at h <;> simp at h
          omega
    exact absurd (hlt h) (lt_irrefl A)
  bases A := by
    simp only [lineRepository]
    split <;> simp
  attributes A := List.nodup_nil
  operations A := by
    simp only [lineRepository]
    split <;> simp
  identifiers A op h := by
    simp only [lineRepository] at h
    split at h
    · obtain rfl := List.mem_singleton.mp h
      decide
    · exact absurd h (List.not_mem_nil)
  inheritedAttributes I A B _ _ a ha := absurd ha (List.not_mem_nil)
  inheritedOperations I A B _ _ a ha b hb _ := by
    simp only [lineRepository] at ha hb
    split at ha
    · split at hb
      · omega
      · exact absurd hb (List.not_mem_nil)
    · exact absurd ha (List.not_mem_nil)

theorem lineRepository_declares :
    Declares linePrimitives lineRepository 2 "op" ⟨some 0, [], [], false⟩ := by
  have hop : (⟨"op", false, 0, [], []⟩ : OperationDef Nat) ∈
      lineRepository.operations 2 := List.mem_cons_self ..
  exact .operation hop

theorem addsSignature_direct_base :
    AddsSignature .sign linePrimitives lineRepository 1 "op" ⟨some 0, [], [], false⟩
        (OperationTable.create .sign linePrimitives) ↔
      ((OperationTable.create .sign linePrimitives).find .sign "op" "IDL:B:1.0").1 = none ∧
      (Pseudo linePrimitives "op" ⟨some 0, [], [], false⟩ ∨
        ∃ A, Near lineRepository 1 A ∧
          Declares linePrimitives lineRepository A "op" ⟨some 0, [], [], false⟩) :=
  addsSignature_iff (.start rfl) lineRepository_wellFormed
    (.inr ⟨2, .single (by simp [Base, lineRepository]), lineRepository_declares⟩)

/-- The operation of a base's base: inherited, not in the table, and
`add_interface` returns null. -/
theorem not_addsSignature_indirect_base :
    WellFormed lineRepository ∧
    Visible linePrimitives lineRepository 0 "op" ⟨some 0, [], [], false⟩ ∧
    ((OperationTable.create .sign linePrimitives).find .sign "op" "IDL:I:1.0").1 = none ∧
    ¬ AddsSignature .sign linePrimitives lineRepository 0 "op" ⟨some 0, [], [], false⟩
      (OperationTable.create .sign linePrimitives) := by
  have hfirst : Base lineRepository 0 1 := by simp [Base, lineRepository]
  have hsecond : Base lineRepository 1 2 := by simp [Base, lineRepository]
  refine ⟨lineRepository_wellFormed,
    .inr ⟨2, .tail (.single hfirst) hsecond, lineRepository_declares⟩, by decide, ?_⟩
  · rintro ⟨a, t', hadd, -⟩
    have hnull : (addInterface .sign linePrimitives lineRepository 0 (some "op")
        (OperationTable.create .sign linePrimitives)).toOption.map Prod.fst = some none := by
      decide
    rw [hadd] at hnull
    exact absurd hnull (by simp [Except.toOption])

end OperationTable

end Lorica
