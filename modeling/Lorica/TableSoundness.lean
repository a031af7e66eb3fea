import Lorica.InterfaceLookup

/-!
What `find` answers after any sequence of `add_interface` calls. Every entry of
a chain is put there by a registration and never taken out, so the table is
sound when every registration is made for interfaces that have the operation,
and only then: an entry that should not be there is found.
-/

namespace Lorica

open Machine

namespace OperationTable

variable {ι T : Type} {cmp : Strcmp} {prims : Primitives T} {repo : Repository ι T}

/-! ## Entries of the table -/

/-- Every entry of the table points to a list that is there, and the list was
made for an operation that `S` knows under the entry's id. -/
def Vouched (cmp : Strcmp) (S : String → String → ArgList T → Prop)
    (t : OperationTable T) : Prop :=
  ∀ o, ∀ e ∈ t.chain cmp o,
    e.2 < t.fresh ∧ ∃ l n, t.lists e.2 = some (l, n) ∧ S e.1 o l

section Entries

variable {S : String → String → ArgList T → Prop} {t : OperationTable T}
variable {regs : List (Registration T)} {d : Desired} {p : Progress T}

theorem vouched_iff_entries : t.Vouched cmp S ↔ t.Entries cmp fun r o l _ => S r o l := Iff.rfl

theorem vouched_empty : (empty : OperationTable T).Vouched cmp S :=
  vouched_iff_entries.mpr entries_empty

theorem Vouched.register (h : t.Vouched cmp S) {name : String} {l : ArgList T}
    {ids : List String} (hids : ids ≠ []) (hnew : ∀ r ∈ ids, S r name l) (wanted : Bool) :
    (t.register cmp name l ids wanted).Vouched cmp S :=
  vouched_iff_entries.mpr
    ((vouched_iff_entries.mp h).register hids (fun r hr _ _ => hnew r hr) wanted)

theorem Vouched.notes (h : p.table.Vouched cmp S)
    (hregs : ∀ r ∈ regs, r.ids ≠ [] ∧ ∀ k ∈ r.ids, S k r.name r.list) :
    (regs.foldl (note cmp d) p).table.Vouched cmp S :=
  vouched_iff_entries.mpr ((vouched_iff_entries.mp h).notes fun r hr =>
    ⟨(hregs r hr).1, fun k hk _ _ => (hregs r hr).2 k hk⟩)

/-- Chains only grow. -/
theorem notes_chain_mono {o : String} {e : OpArgs} (he : e ∈ p.table.chain cmp o) :
    e ∈ (regs.foldl (note cmp d) p).table.chain cmp o := by
  induction regs generalizing p with
  | nil => exact he
  | cons r regs ih =>
      apply ih
      rcases eq_or_ne o r.name with rfl | hne
      · change e ∈ (p.table.register cmp r.name r.list r.ids _).chain cmp r.name
        rw [register_chain_self]
        exact List.mem_append_left _ he
      · change e ∈ (p.table.register cmp r.name r.list r.ids _).chain cmp o
        rwa [register_chain_ne _ _ _ _ hne]

/-- Each id of each registration gets an entry. -/
theorem notes_chain_mem {r : Registration T} {k : String} (hr : r ∈ regs) (hk : k ∈ r.ids) :
    ∃ a, (k, a) ∈ (regs.foldl (note cmp d) p).table.chain cmp r.name := by
  obtain ⟨pre, post, rfl⟩ := List.append_of_mem hr
  rw [List.foldl_append, List.foldl_cons]
  set q := pre.foldl (note cmp d) p
  refine ⟨q.table.fresh, notes_chain_mono ?_⟩
  change _ ∈ (q.table.register cmp r.name r.list r.ids _).chain cmp r.name
  rw [register_chain_self]
  exact List.mem_append_right _ (List.mem_map.mpr ⟨k, hk, rfl⟩)

/-- What `find` returns is an entry of the chain. -/
theorem mem_chain_of_find {o r : String} {a : Nat} (h : (t.find cmp o r).1 = some a) :
    (r, a) ∈ t.chain cmp o := by
  rw [find_eq] at h
  obtain ⟨l₁, l₂, heq, -⟩ := List.lookup_eq_some_iff.mp h
  simp [heq]

theorem find_of_mem_chain {o r : String} {a : Nat} (h : (r, a) ∈ t.chain cmp o) :
    ∃ b, (t.find cmp o r).1 = some b := by
  rw [find_eq]
  cases hlookup : (t.chain cmp o).lookup r with
  | some b => exact ⟨b, rfl⟩
  | none =>
      have hne := List.lookup_eq_none_iff.mp hlookup (r, a) h
      simp at hne

end Entries

/-! ## Who is registered for what -/

section Levels

variable {I : ι} {r : Registration T}

/-- The members of each interface the loop visits are registered under its own
id, those of the interfaces visited before, and nothing else. -/
theorem mem_levelsRegistrations {derived : List String} {bases : List ι} :
    r ∈ levelsRegistrations prims repo I derived bases ↔
      derived = [] ∧ r ∈ pseudoRegistrations prims (repo.id I) ∨
      ∃ pre A post, I :: bases = pre ++ A :: post ∧
        r ∈ memberRegistrations prims repo (repo.id A :: (derived ++ pre.map repo.id)) A := by
  have hlevel : ∀ (I : ι) (derived : List String),
      r ∈ levelRegistrations prims repo I derived ↔
        derived = [] ∧ r ∈ pseudoRegistrations prims (repo.id I) ∨
        r ∈ memberRegistrations prims repo (repo.id I :: derived) I := by
    intro I derived
    unfold levelRegistrations
    rw [List.mem_append]
    split <;> simp [*]
  induction bases generalizing I derived with
  | nil =>
      rw [levelsRegistrations, hlevel]
      refine or_congr_right ?_
      constructor
      · intro h
        exact ⟨[], I, [], rfl, by simpa using h⟩
      · rintro ⟨pre, A, post, heq, h⟩
        cases pre with
        | nil =>
            obtain ⟨rfl, rfl⟩ := List.cons.inj heq
            simpa using h
        | cons first pre => simp at heq
  | cons base bases ih =>
      rw [levelsRegistrations, List.mem_append, hlevel]
      refine (or_congr_right ih).trans ?_
      constructor
      · rintro ((h | h) | (⟨hnil, -⟩ | ⟨pre, A, post, heq, h⟩))
        · exact .inl h
        · exact .inr ⟨[], I, base :: bases, rfl, by simpa using h⟩
        · exact absurd hnil (by simp)
        · refine .inr ⟨I :: pre, A, post, by rw [heq, List.cons_append], ?_⟩
          simpa using h
      · rintro (h | ⟨pre, A, post, heq, h⟩)
        · exact .inl (.inl h)
        · cases pre with
          | nil =>
              obtain ⟨rfl, rfl⟩ := List.cons.inj heq
              exact .inl (.inr (by simpa using h))
          | cons first pre =>
              obtain ⟨rfl, hbases⟩ := List.cons.inj heq
              exact .inr (.inr ⟨pre, A, post, hbases, by simpa using h⟩)

end Levels

/-! ## Sequences of calls -/

section Calls

variable (cmp : Strcmp) (prims : Primitives T) (repo : Repository ι T)

/-- A sequence of `add_interface` calls, each with the operation its caller is
after. -/
def addInterfaces : List (ι × Option String) → OperationTable T →
    Except Fault (OperationTable T)
  | [], t => .ok t
  | (I, desired) :: calls, t => do
      let (_, t) ← addInterface cmp prims repo I desired t
      addInterfaces calls t

/-- `o` is an operation of the interface with this repository id. -/
def Has (repId o : String) (sig : Signature T) : Prop :=
  Pseudo prims o sig ∨ ∃ I, repo.id I = repId ∧ Visible prims repo I o sig

/-- What `find` returns for an operation and an interface is the signature the
operation has there. -/
def Sound (t : OperationTable T) : Prop :=
  ∀ o repId a, (t.find cmp o repId).1 = some a →
    ∃ l n sig, t.lists a = some (l, n) ∧ Describes l sig ∧ Has prims repo repId o sig

/-- A repository id names one interface, and an operation has one signature in
it. -/
structure Unambiguous : Prop where
  ids : Function.Injective repo.id
  signatures : ∀ I o sig sig', Visible prims repo I o sig →
    Visible prims repo I o sig' → sig = sig'

/-- The bases of an interface before another one have its members as well. -/
def BasesShare (I : ι) : Prop :=
  (repo.baseInterfaces I).Pairwise fun earlier later =>
    ∀ o sig, Declares prims repo later o sig → ∃ sig', Visible prims repo earlier o sig'

end Calls

section Soundness

variable {t t' : OperationTable T} {I : ι}

theorem Pseudo.unique {o : String} {sig sig' : Signature T} (h : Pseudo prims o sig)
    (h' : Pseudo prims o sig') : sig = sig' := by
  generalize ho : o = o' at h'
  cases h with
  | isA =>
      cases h' with
      | isA => rfl
      | nonExistent => exact absurd ho (by decide)
  | nonExistent =>
      cases h' with
      | isA => exact absurd ho (by decide)
      | nonExistent => rfl

/-- IDL leaves nothing ambiguous in an interface. -/
theorem WellFormed.unambiguous (h : WellFormed repo) (hids : Function.Injective repo.id) :
    Unambiguous prims repo where
  ids := hids
  signatures I o sig sig' hsig hsig' := by
    rcases hsig with hpseudo | ⟨A, hA, hdeclared⟩
    · rcases hsig' with hpseudo' | ⟨B, -, hdeclared'⟩
      · exact hpseudo.unique hpseudo'
      · exact absurd hpseudo (hdeclared'.not_pseudo h)
    · rcases hsig' with hpseudo' | ⟨B, hB, hdeclared'⟩
      · exact absurd hpseudo' (hdeclared.not_pseudo h)
      · exact (Declares.unique h hA hB hdeclared hdeclared').2

/-- A registration of a call whose bases share their members is made for
interfaces that have the operation. -/
theorem registrations_has_of_share (hrepo : Unambiguous prims repo)
    (hshare : BasesShare prims repo I) {r : Registration T}
    (hr : r ∈ registrations prims repo I) :
    r.ids ≠ [] ∧ ∀ k ∈ r.ids, ∃ sig, Describes r.list sig ∧ Has prims repo k r.name sig := by
  have hid := (registrations_from hr).1
  refine ⟨List.ne_nil_of_mem hid, ?_⟩
  rcases mem_levelsRegistrations.mp hr with ⟨-, hpseudo⟩ | ⟨pre, A, post, heq, hmember⟩
  · obtain ⟨-, sig, hsig, hdescribed⟩ := pseudoRegistrations_from hpseudo
    exact fun k _ => ⟨sig, hdescribed, .inl hsig⟩
  · obtain ⟨hids, sig, hdeclared, hdescribed⟩ := memberRegistrations_from hmember
    have hnear : Near repo I A := by
      have hmem : A ∈ I :: repo.baseInterfaces I := by simp [heq]
      exact List.mem_cons.mp hmem
    have hI : Visible prims repo I r.name sig := .inr ⟨A, hnear.inherited, hdeclared⟩
    rw [hids]
    intro k hk
    refine ⟨sig, hdescribed, .inr ?_⟩
    simp only [List.nil_append, List.mem_cons, List.mem_map] at hk
    rcases hk with rfl | ⟨B, hB, rfl⟩
    · exact ⟨A, rfl, .inr ⟨A, .refl, hdeclared⟩⟩
    · refine ⟨B, rfl, ?_⟩
      cases pre with
      | nil => exact absurd hB (List.not_mem_nil)
      | cons first pre =>
          rw [List.cons_append, List.cons.injEq] at heq
          obtain ⟨rfl, hbases⟩ := heq
          rcases List.mem_cons.mp hB with rfl | hB
          · exact hI
          · -- the list is the one of a later base, and `B` has the name too
            unfold BasesShare at hshare
            rw [hbases, List.pairwise_append] at hshare
            obtain ⟨sig', hsig'⟩ := hshare.2.2 B hB A (List.mem_cons_self ..) _ _ hdeclared
            have hbase : Base repo I B := by simp [Base, hbases, hB]
            have hsame : sig' = sig := by
              refine hrepo.signatures I _ _ _ ?_ hI
              rcases hsig' with hpseudo | ⟨C, hC, hdeclared'⟩
              · exact .inl hpseudo
              · exact .inr ⟨C, .head hbase hC, hdeclared'⟩
            exact hsame ▸ hsig'

/-- A call that returns leaves its registrations in the table. -/
theorem addInterface_table {desired : Option String} {result : Option Nat}
    (h : addInterface cmp prims repo I desired t = .ok (result, t')) :
    ∃ d, t' = ((registrations prims repo I).foldl (note cmp d) ⟨none, t⟩).table := by
  cases hwant : Desired.wantsAttribute desired with
  | error cause => simp [addInterface, hwant, bind, Except.bind] at h
  | ok want =>
      rw [addInterface_eq hwant] at h
      exact ⟨_, (Prod.mk.inj (Except.ok.inj h)).2.symm⟩

theorem addInterfaces_cons {desired : Option String} {calls : List (ι × Option String)}
    (h : addInterfaces cmp prims repo ((I, desired) :: calls) t = .ok t') :
    ∃ d, addInterfaces cmp prims repo calls
      ((registrations prims repo I).foldl (note cmp d) ⟨none, t⟩).table = .ok t' := by
  unfold addInterfaces at h
  obtain ⟨⟨result, t₁⟩, hcall, hrest⟩ := ok_of_bind h
  obtain ⟨d, rfl⟩ := addInterface_table hcall
  exact ⟨d, hrest⟩

theorem addInterfaces_vouched {S : String → String → ArgList T → Prop}
    {calls : List (ι × Option String)}
    (hcalls : ∀ call ∈ calls, ∀ r ∈ registrations prims repo call.1,
      r.ids ≠ [] ∧ ∀ k ∈ r.ids, S k r.name r.list)
    (ht : t.Vouched cmp S) (h : addInterfaces cmp prims repo calls t = .ok t') :
    t'.Vouched cmp S := by
  induction calls generalizing t with
  | nil => exact Except.ok.inj h ▸ ht
  | cons call calls ih =>
      obtain ⟨d, hrest⟩ := addInterfaces_cons h
      refine ih (fun c hc => hcalls c (List.mem_cons_of_mem _ hc)) ?_ hrest
      exact Vouched.notes (p := ⟨none, t⟩) ht (hcalls call (List.mem_cons_self ..))

theorem addInterfaces_chain_mono {calls : List (ι × Option String)}
    (h : addInterfaces cmp prims repo calls t = .ok t') {o : String} {e : OpArgs}
    (he : e ∈ t.chain cmp o) : e ∈ t'.chain cmp o := by
  induction calls generalizing t with
  | nil => exact Except.ok.inj h ▸ he
  | cons call calls ih =>
      obtain ⟨d, hrest⟩ := addInterfaces_cons h
      exact ih hrest (notes_chain_mono (p := ⟨none, t⟩) he)

theorem addInterfaces_chain_mem {calls : List (ι × Option String)}
    (h : addInterfaces cmp prims repo calls t = .ok t') {call : ι × Option String}
    (hcall : call ∈ calls) {r : Registration T} (hr : r ∈ registrations prims repo call.1)
    {k : String} (hk : k ∈ r.ids) : ∃ a, (k, a) ∈ t'.chain cmp r.name := by
  induction calls generalizing t with
  | nil => exact absurd hcall (List.not_mem_nil)
  | cons first calls ih =>
      obtain ⟨d, hrest⟩ := addInterfaces_cons h
      rcases List.mem_cons.mp hcall with rfl | hcall
      · obtain ⟨a, ha⟩ := notes_chain_mem (p := ⟨none, t⟩) hr hk
        exact ⟨a, addInterfaces_chain_mono hrest ha⟩
      · exact ih hrest hcall

theorem vouched_create :
    (OperationTable.create cmp prims).Vouched cmp fun k o l =>
      ∃ sig, Describes l sig ∧ Has prims repo k o sig := by
  rw [create_eq]
  refine (vouched_empty.register (by simp) ?_ _).register (by simp) ?_ _
  · exact fun k _ => ⟨_, describes_create .., .inl .isA⟩
  · exact fun k _ => ⟨_, describes_create .., .inl .nonExistent⟩

/-- The members of a later base are registered under the ids of the bases
before it. -/
theorem registrations_earlier {before rest : List ι} {B C : ι} {o : String}
    {sig : Signature T} (hbases : repo.baseInterfaces I = before ++ rest) (hB : B ∈ before)
    (hC : C ∈ rest) (h : Declares prims repo C o sig) :
    ∃ r ∈ registrations prims repo I, r.name = o ∧ repo.id B ∈ r.ids := by
  obtain ⟨mid, post, rfl⟩ := List.append_of_mem hC
  obtain ⟨r, hr, hname, -⟩ :=
    memberRegistrations_has h (repo.id C :: ([] ++ (I :: (before ++ mid)).map repo.id))
  refine ⟨r, mem_levelsRegistrations.mpr (.inr ⟨I :: (before ++ mid), C, post, ?_, hr⟩),
    hname, ?_⟩
  · rw [hbases, List.cons_append, List.append_assoc]
  · have hmem : repo.id B ∈ (before ++ mid).map repo.id :=
      List.mem_map_of_mem (List.mem_append_left _ hB)
    rw [(memberRegistrations_from hr).1]
    simp only [List.nil_append, List.map_cons, List.mem_cons]
    exact .inr (.inr hmem)

/-- The table answers soundly exactly when no interface was added one of whose
bases declares an operation that a base before it does not have. -/
theorem sound_iff_basesShare (hrepo : Unambiguous prims repo)
    {calls : List (ι × Option String)}
    (h : addInterfaces cmp prims repo calls (OperationTable.create cmp prims) = .ok t) :
    Sound cmp prims repo t ↔ ∀ call ∈ calls, BasesShare prims repo call.1 := by
  constructor
  · intro hsound call hcall
    unfold BasesShare
    rw [List.pairwise_iff_forall_sublist]
    intro B C hsub o sig hdeclared
    obtain ⟨before, rest, hbases, hB, hC⟩ := List.cons_sublist_iff.mp hsub
    obtain ⟨r, hr, rfl, hid⟩ :=
      registrations_earlier hbases hB (List.singleton_sublist.mp hC) hdeclared
    obtain ⟨a, ha⟩ := addInterfaces_chain_mem h hcall hr hid
    obtain ⟨b, hfound⟩ := find_of_mem_chain ha
    obtain ⟨-, -, sig', -, -, hhas⟩ := hsound _ _ b hfound
    refine ⟨sig', ?_⟩
    rcases hhas with hpseudo | ⟨J, hJ, hvisible⟩
    · exact .inl hpseudo
    · exact hrepo.ids hJ ▸ hvisible
  · intro hshare o repId a hfind
    have hvouched := addInterfaces_vouched
      (fun call hcall r hr => registrations_has_of_share hrepo (hshare call hcall) hr)
      vouched_create h
    obtain ⟨-, l, n, hl, sig, hdescribed, hhas⟩ := hvouched o _ (mem_chain_of_find hfind)
    exact ⟨l, n, sig, hl, hdescribed, hhas⟩

/-- Calls return unless one of them asks for the operation "_". -/
theorem addInterfaces_returns {calls : List (ι × Option String)}
    (h : ∀ call ∈ calls, ∃ want, Desired.wantsAttribute call.2 = .ok want)
    (t : OperationTable T) : ∃ t', addInterfaces cmp prims repo calls t = .ok t' := by
  induction calls generalizing t with
  | nil => exact ⟨t, rfl⟩
  | cons call calls ih =>
      obtain ⟨want, hwant⟩ := h call (List.mem_cons_self ..)
      rw [addInterfaces, addInterface_eq hwant]
      exact ih (fun c hc => h c (List.mem_cons_of_mem _ hc)) _

end Soundness

/-! An interface with two bases, of which only the second has an operation. -/

def siblingRepository : Repository (Fin 3) Nat where
  id n := if n = 0 then "IDL:I:1.0" else if n = 1 then "IDL:B:1.0" else "IDL:C:1.0"
  baseInterfaces n := if n = 0 then [1, 2] else []
  attributes _ := []
  operations n := if n = 2 then [⟨"op", false, 0, [], []⟩] else []

theorem siblingRepository_declares {A : Fin 3} {o : String} {sig : Signature Nat}
    (h : Declares linePrimitives siblingRepository A o sig) :
    A = 2 ∧ o = "op" ∧ sig = ⟨some 0, [], [], false⟩ := by
  cases h with
  | get h => exact absurd h (List.not_mem_nil)
  | set h => exact absurd h (List.not_mem_nil)
  | operation h =>
      obtain ⟨hA, hop⟩ := List.mem_ite_nil_right.mp h
      obtain rfl := List.mem_singleton.mp hop
      exact ⟨hA, rfl, rfl⟩

theorem op_not_pseudo {sig : Signature Nat} : ¬ Pseudo linePrimitives "op" sig := by
  intro h
  rcases h.name_cases with h | h
  · exact absurd h (by decide)
  · exact absurd h (by decide)

theorem siblingRepository_unambiguous :
    Unambiguous linePrimitives siblingRepository where
  ids := by decide
  signatures I o sig sig' hsig hsig' := by
    rcases hsig with hpseudo | ⟨A, -, hdeclared⟩
    · rcases hsig' with hpseudo' | ⟨B, -, hdeclared'⟩
      · exact hpseudo.unique hpseudo'
      · obtain ⟨-, rfl, -⟩ := siblingRepository_declares hdeclared'
        exact absurd hpseudo op_not_pseudo
    · obtain ⟨-, rfl, rfl⟩ := siblingRepository_declares hdeclared
      rcases hsig' with hpseudo' | ⟨B, -, hdeclared'⟩
      · exact absurd hpseudo' op_not_pseudo
      · exact (siblingRepository_declares hdeclared').2.2.symm

theorem siblingRepository_calls :
    ∃ t, addInterfaces .sign linePrimitives siblingRepository [(0, some "op")]
        (OperationTable.create .sign linePrimitives) = .ok t ∧
      (Sound .sign linePrimitives siblingRepository t ↔
        ∀ call ∈ [((0 : Fin 3), some "op")],
          BasesShare linePrimitives siblingRepository call.1) := by
  have hwant : ∀ call ∈ [((0 : Fin 3), some "op")],
      ∃ want, Desired.wantsAttribute call.2 = .ok want := by
    intro call hcall
    obtain rfl := List.mem_singleton.mp hcall
    exact ⟨false, by simp [Desired.wantsAttribute]⟩
  obtain ⟨t, ht⟩ := addInterfaces_returns hwant (OperationTable.create .sign linePrimitives)
  exact ⟨t, ht, sound_iff_basesShare siblingRepository_unambiguous ht⟩

/-- One call for an interface with two bases: the operation of the second one is
found under the id of the first, which does not have it. -/
theorem not_sound_sibling_base :
    (∀ A, ¬ Relation.TransGen (Base siblingRepository) A A) ∧
    Unambiguous linePrimitives siblingRepository ∧
    ∃ t, addInterfaces .sign linePrimitives siblingRepository [(0, some "op")]
        (OperationTable.create .sign linePrimitives) = .ok t ∧
      ¬ Sound .sign linePrimitives siblingRepository t := by
  have hbase : ∀ {A B}, Base siblingRepository A B → A = 0 ∧ B ≠ 0 := by
    intro A B h
    obtain ⟨hA, hB⟩ := List.mem_ite_nil_right.mp h
    refine ⟨hA, ?_⟩
    rintro rfl
    exact absurd hB (by decide)
  refine ⟨?_, siblingRepository_unambiguous, ?_⟩
  · intro A h
    have hends : ∀ {A B}, Relation.TransGen (Base siblingRepository) A B → A = 0 ∧ B ≠ 0 := by
      intro A B h
      induction h with
      | single h => exact hbase h
      | tail _ h ih => exact ⟨ih.1, (hbase h).2⟩
    exact (hends h).2 (hends h).1
  · have hfound : ((addInterfaces .sign linePrimitives siblingRepository [(0, some "op")]
        (OperationTable.create .sign linePrimitives)).toOption.map fun t =>
          (t.find .sign "op" "IDL:B:1.0").1) = some (some 4) := by decide
    cases ht : addInterfaces .sign linePrimitives siblingRepository [(0, some "op")]
        (OperationTable.create .sign linePrimitives) with
    | error cause =>
        rw [ht] at hfound
        cases hfound
    | ok t =>
        refine ⟨t, rfl, fun hsound => ?_⟩
        rw [ht] at hfound
        obtain ⟨-, -, sig, -, -, hhas⟩ := hsound _ _ _ (Option.some.inj hfound)
        rcases hhas with hpseudo | ⟨I, hI, hpseudo | ⟨A, hA, hdeclared⟩⟩
        · exact op_not_pseudo hpseudo
        · exact op_not_pseudo hpseudo
        · obtain ⟨rfl, -, -⟩ := siblingRepository_declares hdeclared
          have hfirst : I = 1 := siblingRepository_unambiguous.ids (hI.trans rfl)
          rcases hA.cases_head with heq | ⟨B, hB, -⟩
          · exact absurd (hfirst.symm.trans heq) (by decide)
          · exact absurd (hfirst.symm.trans (hbase hB).1) (by decide)

end OperationTable

end Lorica
