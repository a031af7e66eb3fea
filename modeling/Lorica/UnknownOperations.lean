import Lorica.GenericEvaluator
import Lorica.TableSoundness

/-!
Requests for operations that the target does not have. The name comes from the
client. `evaluate_request` uses what `add_interface` returns without a test, so
it survives a name that the table has or that the interface or a direct base
offers, and no other; the name "_" is read past its end before that.
-/

namespace Lorica

open Machine

namespace OperationTable

variable {ι T : Type} {cmp : Strcmp} {prims : Primitives T} {repo : Repository ι T}

/-! ## Names that are offered -/

/-- The names `add_interface` has a list for. An operation whose name looks like
that of an accessor is passed over. -/
inductive Offers (repo : Repository ι T) (I : ι) : String → Prop where
  | isA : Offers repo I "_is_a"
  | nonExistent : Offers repo I "_non_existent"
  | get {A : ι} {attr : AttributeDef T} (hnear : Near repo I A)
      (h : attr ∈ repo.attributes A) : Offers repo I ("_get_" ++ attr.name)
  | set {A : ι} {attr : AttributeDef T} (hnear : Near repo I A)
      (h : attr ∈ repo.attributes A) (hmode : attr.readonly = false) :
      Offers repo I ("_set_" ++ attr.name)
  | operation {A : ι} {op : OperationDef T} (hnear : Near repo I A)
      (h : op ∈ repo.operations A)
      (hname : Desired.wantsAttribute (some op.name) = .ok false) : Offers repo I op.name

/-- Only the name "_" is read past its end. -/
theorem wantsAttribute_error {o : String} {cause : Fault} :
    Desired.wantsAttribute (some o) = .error cause ↔ o = "_" ∧ cause = .outOfBounds := by
  have hname : o = "_" ↔ o.toList = ['_'] := by
    rw [← String.toList_inj]
    rfl
  rw [hname]
  unfold Desired.wantsAttribute
  dsimp only
  split
  · next heq => simp [heq, eq_comm]
  · next heq => simp [heq]
  · next hshort hlong =>
      constructor
      · intro h
        cases h
      · exact fun h => absurd h.1 hshort

theorem wantsAttribute_get (name : String) :
    Desired.wantsAttribute (some ("_get_" ++ name)) = .ok true := by
  simp [Desired.wantsAttribute]

theorem wantsAttribute_set (name : String) :
    Desired.wantsAttribute (some ("_set_" ++ name)) = .ok true := by
  simp [Desired.wantsAttribute]

section Result

variable {d : Desired} {regs : List (Registration T)} {p : Progress T}

/-- Nothing is returned exactly when no registration is the wanted one. -/
theorem notes_result_none :
    (regs.foldl (note cmp d) p).result = none ↔
      p.result = none ∧ ∀ r ∈ regs, r.wanted d = false := by
  induction regs generalizing p with
  | nil => simp
  | cons r regs ih =>
      rw [List.foldl_cons, ih, List.forall_mem_cons, ← and_assoc]
      refine and_congr_left fun _ => ?_
      cases hwanted : r.wanted d with
      | false => simp [note, Progress.register, hwanted]
      | true => simp [note, Progress.register, hwanted]

theorem wanted_iff {r : Registration T} {o : String} {want : Bool} :
    r.wanted ⟨some o, want⟩ = true ↔ r.name = o ∧ r.isAttribute = want := by
  rw [eq_comm (a := r.name)]
  unfold Registration.wanted Desired.accessor Desired.operation
  cases r.isAttribute <;> cases want <;> simp

variable {I : ι} {o : String} {want : Bool}

theorem mem_registrations {r : Registration T} :
    r ∈ registrations prims repo I ↔
      r ∈ pseudoRegistrations prims (repo.id I) ∨
      ∃ pre A post, I :: repo.baseInterfaces I = pre ++ A :: post ∧
        r ∈ memberRegistrations prims repo (repo.id A :: pre.map repo.id) A := by
  unfold registrations
  rw [mem_levelsRegistrations]
  simp only [true_and, List.nil_append]

theorem near_iff_split {A : ι} :
    Near repo I A ↔ ∃ pre post, I :: repo.baseInterfaces I = pre ++ A :: post := by
  rw [← List.mem_iff_append, List.mem_cons]
  rfl

/-- The wanted registration is that of an offered name. -/
theorem wanted_iff_offers (hwant : Desired.wantsAttribute (some o) = .ok want) :
    (∃ r ∈ registrations prims repo I, r.wanted ⟨some o, want⟩ = true) ↔
      Offers repo I o := by
  constructor
  · rintro ⟨r, hr, hwanted⟩
    obtain ⟨rfl, rfl⟩ := wanted_iff.mp hwanted
    rcases mem_registrations.mp hr with hpseudo | ⟨pre, A, post, heq, hmember⟩
    · rcases List.mem_cons.mp hpseudo with rfl | hpseudo
      · exact .isA
      · obtain rfl := List.mem_singleton.mp hpseudo
        exact .nonExistent
    · have hnear : Near repo I A := near_iff_split.mpr ⟨pre, post, heq⟩
      rcases List.mem_append.mp hmember with hattribute | hoperation
      · obtain ⟨attr, hattr, hr⟩ := List.mem_flatMap.mp hattribute
        rcases List.mem_cons.mp hr with rfl | hr
        · exact .get hnear hattr
        · cases hmode : attr.readonly with
          | true => simp [hmode] at hr
          | false =>
              simp only [hmode, Bool.false_eq_true, if_false, List.mem_singleton] at hr
              subst hr
              exact .set hnear hattr hmode
      · obtain ⟨op, hop, rfl⟩ := List.mem_map.mp hoperation
        exact .operation hnear hop hwant
  · have hmember : ∀ {A : ι} {name : String} {isAttribute : Bool}, Near repo I A →
        (∀ ids, ∃ l, ⟨isAttribute, name, l, ids⟩ ∈ memberRegistrations prims repo ids A) →
        isAttribute = want →
        ∃ r ∈ registrations prims repo I, r.wanted ⟨some name, want⟩ = true := by
      intro A name isAttribute hnear hmem hkind
      obtain ⟨pre, post, heq⟩ := near_iff_split.mp hnear
      obtain ⟨l, hl⟩ := hmem (repo.id A :: pre.map repo.id)
      exact ⟨_, mem_registrations.mpr (.inr ⟨pre, A, post, heq, hl⟩),
        wanted_iff.mpr ⟨rfl, hkind⟩⟩
    intro hoffers
    cases hoffers with
    | isA =>
        refine ⟨_, mem_registrations.mpr (.inl (List.mem_cons_self ..)), ?_⟩
        refine wanted_iff.mpr ⟨rfl, ?_⟩
        simpa [Desired.wantsAttribute] using hwant
    | nonExistent =>
        refine ⟨_, mem_registrations.mpr
          (.inl (List.mem_cons_of_mem _ (List.mem_cons_self ..))), ?_⟩
        refine wanted_iff.mpr ⟨rfl, ?_⟩
        simpa [Desired.wantsAttribute] using hwant
    | @get A attr hnear h =>
        refine hmember hnear (fun ids => ⟨getter attr, ?_⟩)
          (Except.ok.inj ((wantsAttribute_get _).symm.trans hwant))
        exact List.mem_append_left _
          (List.mem_flatMap.mpr ⟨attr, h, List.mem_cons_self ..⟩)
    | @set A attr hnear h hmode =>
        refine hmember hnear (fun ids => ⟨setter prims attr, ?_⟩)
          (Except.ok.inj ((wantsAttribute_set _).symm.trans hwant))
        refine List.mem_append_left _ (List.mem_flatMap.mpr ⟨attr, h, ?_⟩)
        simp [attributeRegistrations, hmode]
    | @operation A op hnear h hname =>
        refine hmember hnear (fun ids => ⟨argList op, ?_⟩)
          (Except.ok.inj (hname.symm.trans hwant))
        exact List.mem_append_right _ (List.mem_map.mpr ⟨op, h, rfl⟩)

end Result

end OperationTable

namespace GenericEvaluator

open OperationTable

variable {ι : Type} (ev : GenericEvaluator ι)

/-! ## Requests -/

/-- The operation has an entry in the table under the target's id. -/
def Known (o : String) (t : OperationTable Nat) : Prop :=
  ∃ a, (ev.typeId, a) ∈ t.chain ev.cmp o

/-- What a request with any operation name is met with. -/
structure RejectsUnknown (o : String) (s : Frame) : Prop where
  terminated : ∀ I t, addInterface ev.cmp ev.prims ev.repo I (some o) t ≠ .error .outOfBounds
  notNull : deref (ev.lookup o s.table) ≠ .error .nullDereference
  refused : ∀ t, ev.lookup o s.table = .ok (none, t) → ∀ reqPoa decoded s' outcome,
    (ev.evaluateRequest o reqPoa decoded).run s = (outcome, s') →
    outcome = .ok false ∨ ∃ e, outcome = .raised e

section

variable {ev} {o : String} {s : Frame} {t : OperationTable Nat}

theorem known_iff_find : ev.Known o t ↔ ∃ a, (t.find ev.cmp o ev.typeId).1 = some a := by
  constructor
  · rintro ⟨a, ha⟩
    exact find_of_mem_chain ha
  · rintro ⟨a, ha⟩
    exact ⟨a, mem_chain_of_find ha⟩

theorem lookup_of_known (h : ev.Known o t) :
    ∃ a t', ev.lookup o t = .ok (some a, t') := by
  obtain ⟨a, ha⟩ := known_iff_find.mp h
  refine ⟨a, (t.find ev.cmp o ev.typeId).2, ?_⟩
  unfold lookup
  rw [← Prod.eta (t.find ev.cmp o ev.typeId), ha]

theorem lookup_of_not_known (h : ¬ ev.Known o t) :
    ev.lookup o t = addInterface ev.cmp ev.prims ev.repo ev.intDef (some o)
      (t.find ev.cmp o ev.typeId).2 := by
  rw [known_iff_find, not_exists, ← Option.eq_none_iff_forall_ne_some] at h
  unfold lookup
  rw [← Prod.eta (t.find ev.cmp o ev.typeId), h]

variable (ev)

/-- What `add_interface` returns is null unless the name is offered. -/
theorem addInterface_none_iff (ho : o ≠ "_") (I : ι) (t : OperationTable Nat) :
    ∃ result t', addInterface ev.cmp ev.prims ev.repo I (some o) t = .ok (result, t') ∧
      (result = none ↔ ¬ Offers ev.repo I o) := by
  cases hwant : Desired.wantsAttribute (some o) with
  | error cause => exact absurd (wantsAttribute_error.mp hwant).1 ho
  | ok want =>
      refine ⟨_, _, addInterface_eq hwant, ?_⟩
      have hoffers := @wanted_iff_offers _ _ ev.prims ev.repo I o want hwant
      rw [notes_result_none, ← hoffers]
      simp

theorem lookup_none_iff (ho : o ≠ "_") (t : OperationTable Nat) :
    ∃ result t', ev.lookup o t = .ok (result, t') ∧
      (result = none ↔ ¬ (ev.Known o t ∨ Offers ev.repo ev.intDef o)) := by
  by_cases hknown : ev.Known o t
  · obtain ⟨a, t', hlookup⟩ := lookup_of_known hknown
    exact ⟨some a, t', hlookup, by simp [hknown]⟩
  · rw [lookup_of_not_known hknown]
    obtain ⟨result, t', hadd, hresult⟩ := addInterface_none_iff ev ho ev.intDef
      (t.find ev.cmp o ev.typeId).2
    exact ⟨result, t', hadd, by simp [hresult, hknown]⟩

variable {ev}

/-- A request is met properly exactly when its operation is not "_" and is known
or offered. -/
theorem rejectsUnknown_iff_offers :
    ev.RejectsUnknown o s ↔
      o ≠ "_" ∧ (ev.Known o s.table ∨ Offers ev.repo ev.intDef o) := by
  constructor
  · intro h
    have ho : o ≠ "_" := by
      intro ho
      apply h.terminated ev.intDef s.table
      have hwant := (@wantsAttribute_error o .outOfBounds).mpr ⟨ho, rfl⟩
      simp [addInterface, hwant, bind, Except.bind]
    refine ⟨ho, ?_⟩
    obtain ⟨result, t, hlookup, hresult⟩ := lookup_none_iff ev ho s.table
    by_contra hunknown
    apply h.notNull
    rw [hlookup, hresult.mpr hunknown]
    rfl
  · rintro ⟨ho, hoffered⟩
    obtain ⟨result, t, hlookup, hresult⟩ := lookup_none_iff ev ho s.table
    have hfound : result ≠ none := fun hnone => hresult.mp hnone hoffered
    constructor
    · intro I t herror
      obtain ⟨_, _, hadd, -⟩ := addInterface_none_iff ev ho I t
      rw [hadd] at herror
      cases herror
    · intro herror
      rw [hlookup] at herror
      obtain ⟨a, rfl⟩ := Option.ne_none_iff_exists'.mp hfound
      unfold deref at herror
      dsimp only at herror
      split at herror
      · cases herror
      · cases herror
    · intro t' hnone
      rw [hlookup] at hnone
      exact absurd (Prod.mk.inj (Except.ok.inj hnone)).1 hfound

end

/-- A target with nothing but the operations every object has. -/
def bareEvaluator : GenericEvaluator Unit where
  typeId := "IDL:I:1.0"
  intDef := ()
  repo := ⟨fun _ => "IDL:I:1.0", fun _ => [], fun _ => [], fun _ => []⟩
  prims := ⟨0, 1, 2⟩
  cmp := .sign
  types := ⟨fun _ => .tkBasic, fun _ => 0, fun _ _ h => absurd h (by simp)⟩
  dynAnyRefuses _ := none
  stack := 8
  orb := .plain
  inst := ⟨0, 0⟩
  mapper := 0

def bareFrame : Frame where
  table := .create .sign ⟨0, 1, 2⟩
  reg :=
    { mappers := [.new true (· == "IDL:I:1.0")]
      values := ⟨fun _ => none, 0⟩
      hasSecurity := false
      history := [] }
  args := []
  outArgs := []
  result := none
  encap := none

/-- A name the target does not have: the null list is used. -/
theorem not_rejectsUnknown_bare : ¬ bareEvaluator.RejectsUnknown "op" bareFrame := by
  intro h
  have hnull : deref (bareEvaluator.lookup "op" bareFrame.table) =
      .error .nullDereference := by
    have hanswer : (bareEvaluator.lookup "op" bareFrame.table).toOption.map Prod.fst =
        some none := by decide
    cases hlookup : bareEvaluator.lookup "op" bareFrame.table with
    | error cause => simp [hlookup, Except.toOption] at hanswer
    | ok found =>
        rw [hlookup] at hanswer
        obtain ⟨result, t⟩ := found
        obtain rfl : result = none := by simpa [Except.toOption] using hanswer
        rfl
  exact h.notNull hnull

end GenericEvaluator

end Lorica
