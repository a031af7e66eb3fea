import Lorica.ListBalance
import Lorica.TypeSearch

/-!
The `must_proxy_` flags in the lists of an operation table. No call of the
table looks into a list, so that what it does to a table is what it does to
the table with the flags taken off; and a flag that is right about its type
stays right, as the evaluators write no other.
-/

namespace Lorica

open Machine

/-! ## Lists without their flags -/

/-- The argument as it was when `init` had set it. -/
def Arg.forget {T : Type} (arg : Arg T) : Arg T := { arg with mustProxy := -1 }

def ArgList.forget {T : Type} (l : ArgList T) : ArgList T :=
  { l with
    result := l.result.forget
    args := l.args.map Arg.forget
    exceptions := l.exceptions.map Arg.forget }

section Forgetting

variable {T : Type}

@[simp] theorem Arg.forget_forget (arg : Arg T) : arg.forget.forget = arg.forget := rfl

@[simp] theorem Arg.forget_tc (arg : Arg T) : arg.forget.tc = arg.tc := rfl

@[simp] theorem Arg.forget_mode (arg : Arg T) : arg.forget.mode = arg.mode := rfl

@[simp] theorem Arg.forget_mustProxy (arg : Arg T) : arg.forget.mustProxy = -1 := rfl

@[simp] theorem ArgList.forget_forget (l : ArgList T) : l.forget.forget = l.forget := by
  simp [ArgList.forget, Function.comp_def]

/-- A list is made without flags. -/
theorem ArgList.forget_create (args : List (T × Flags)) (exceptions : List T) (oneway : Bool)
    (result : Option T) :
    (ArgList.create args exceptions oneway result).forget =
      .create args exceptions oneway result := by
  cases result <;>
    simp [ArgList.forget, ArgList.create, Arg.forget, Arg.init, Arg.nil, Function.comp_def]

end Forgetting

/-! ## The table does not look into its lists -/

namespace OperationTable

variable {ι T : Type}

/-- Every list rewritten where it is. -/
def mapLists (f : ArgList T → ArgList T) (t : OperationTable T) : OperationTable T :=
  { t with lists := fun a => (t.lists a).map fun c => (f c.1, c.2) }

/-- The table as if nothing had been found out about any type. -/
def forget (t : OperationTable T) : OperationTable T := t.mapLists ArgList.forget

section Naturality

variable {cmp : Strcmp} {f : ArgList T → ArgList T} {t : OperationTable T}

theorem mapLists_ext {t' : OperationTable T} (hhead : t.head = t'.head)
    (hlists : ∀ a, t.lists a = t'.lists a) (hfresh : t.fresh = t'.fresh) : t = t' := by
  obtain ⟨head, lists, fresh⟩ := t
  obtain ⟨head', lists', fresh'⟩ := t'
  obtain rfl : lists = lists' := funext hlists
  simp_all

@[simp] theorem forget_forget (t : OperationTable T) : t.forget.forget = t.forget := by
  refine mapLists_ext rfl (fun a => ?_) rfl
  simp only [forget, mapLists, Option.map_map]
  congr 1
  funext c
  simp

theorem mapLists_find (o r : String) :
    (t.mapLists f).find cmp o r =
      ((t.find cmp o r).1, (t.find cmp o r).2.mapLists f) := by
  have hhead : (t.mapLists f).head = t.head := rfl
  unfold find
  rw [hhead]
  cases t.head.find? cmp.turn o with
  | none => rfl
  | some argSet =>
      dsimp only
      cases argSet.lookup r with
      | none => rfl
      | some a =>
          refine Prod.ext rfl (mapLists_ext rfl (fun b => ?_) rfl)
          simp only [addRef, mapLists]
          split
          · simp only [Option.map_map]
            rfl
          · rfl

theorem mapLists_newList (l : ArgList T) :
    (t.newList l).mapLists f = (t.mapLists f).newList (f l) := by
  refine mapLists_ext rfl (fun b => ?_) rfl
  by_cases hb : b = t.fresh
  · subst hb
    simp [newList, mapLists]
  · simp [newList, mapLists, hb]

theorem mapLists_addRef (a : Nat) : (t.addRef a).mapLists f = (t.mapLists f).addRef a := by
  refine mapLists_ext rfl (fun b => ?_) rfl
  simp only [addRef, mapLists]
  split
  · simp only [Option.map_map]
    rfl
  · rfl

theorem mapLists_removeRef (a : Nat) :
    (t.removeRef a).mapLists f = (t.mapLists f).removeRef a := by
  refine mapLists_ext rfl (fun b => ?_) rfl
  simp only [removeRef, mapLists]
  split
  · cases t.lists b with
    | none => rfl
    | some c =>
        simp only [Option.map_some, Option.bind_some]
        split <;> rfl
  · rfl

theorem mapLists_addRefIf (wanted : Bool) (a : Nat) :
    (t.addRefIf wanted a).mapLists f = (t.mapLists f).addRefIf wanted a := by
  cases wanted with
  | false => rfl
  | true => exact mapLists_addRef a

theorem mapLists_addSet (o r : String) (a : Nat) :
    (t.addSet cmp o r a).mapLists f = (t.mapLists f).addSet cmp o r a :=
  congrArg (fun t' : OperationTable T => { t' with
    head := t.head.modify cmp.turn o (· ++ [(r, a)]) }) (mapLists_addRef a)

theorem mapLists_foldl_addSet (o : String) (a : Nat) (ids : List String) :
    (ids.foldl (fun t r => t.addSet cmp o r a) t).mapLists f =
      ids.foldl (fun t r => t.addSet cmp o r a) (t.mapLists f) := by
  induction ids generalizing t with
  | nil => rfl
  | cons r ids ih => rw [List.foldl_cons, ih, mapLists_addSet, List.foldl_cons]

theorem mapLists_register (o : String) (l : ArgList T) (ids : List String) (wanted : Bool) :
    (t.register cmp o l ids wanted).mapLists f =
      (t.mapLists f).register cmp o (f l) ids wanted := by
  have hnew : ((t.findOrAdd cmp o).newList l).mapLists f =
      ((t.mapLists f).findOrAdd cmp o).newList (f l) := mapLists_newList l
  simp only [register, mapLists_removeRef, mapLists_foldl_addSet, mapLists_addRefIf, hnew]
  rfl

end Naturality

section Registrations

variable {cmp : Strcmp} {prims : Primitives T} {repo : Repository ι T} {t : OperationTable T}
variable {d : Desired}

/-- The lists `add_interface` makes have no flags. -/
theorem registrations_forget {I : ι} {r : Registration T} (h : r ∈ registrations prims repo I) :
    r.list.forget = r.list := by
  rcases levelsRegistrations_mem h with ⟨repId, h⟩ | ⟨A, ids, h⟩
  · rcases List.mem_cons.mp h with rfl | h
    · exact ArgList.forget_create ..
    · obtain rfl := List.mem_singleton.mp h
      exact ArgList.forget_create ..
  · rcases List.mem_append.mp h with h | h
    · obtain ⟨attr, -, hr⟩ := List.mem_flatMap.mp h
      unfold attributeRegistrations at hr
      rcases List.mem_cons.mp hr with rfl | hr
      · exact ArgList.forget_create ..
      · split at hr
        · cases hr
        · obtain rfl := List.mem_singleton.mp hr
          exact ArgList.forget_create ..
    · obtain ⟨op, -, rfl⟩ := List.mem_map.mp h
      exact ArgList.forget_create ..

theorem notes_forget (cmp : Strcmp) (d : Desired) {regs : List (Registration T)}
    (hregs : ∀ r ∈ regs, r.list.forget = r.list) (p : Progress T) :
    regs.foldl (note cmp d) ⟨p.result, p.table.forget⟩ =
      ⟨(regs.foldl (note cmp d) p).result, (regs.foldl (note cmp d) p).table.forget⟩ := by
  induction regs generalizing p with
  | nil => rfl
  | cons r regs ih =>
      have hone : note cmp d ⟨p.result, p.table.forget⟩ r =
          ⟨(note cmp d p r).result, (note cmp d p r).table.forget⟩ := by
        have htable : (p.table.register cmp r.name r.list r.ids (r.wanted d)).mapLists
            ArgList.forget =
              p.table.forget.register cmp r.name r.list.forget r.ids (r.wanted d) :=
          mapLists_register ..
        rw [hregs r (List.mem_cons_self ..)] at htable
        exact congrArg (Progress.mk _) htable.symm
      rw [List.foldl_cons, hone,
        ih (fun r hr => hregs r (List.mem_cons_of_mem _ hr)) (note cmp d p r)]
      rfl

/-- `add_interface` and the flags of the lists that are there go by each other. -/
theorem addInterface_forget (I : ι) (desired : Option String) (t : OperationTable T) :
    addInterface cmp prims repo I desired t.forget =
      (addInterface cmp prims repo I desired t).map fun p => (p.1, p.2.forget) := by
  cases hwant : Desired.wantsAttribute desired with
  | error cause =>
      unfold addInterface
      rw [hwant]
      rfl
  | ok wantAttribute =>
      rw [addInterface_eq hwant, addInterface_eq hwant]
      have hregs : ∀ r ∈ registrations prims repo I, r.list.forget = r.list :=
        fun r hr => registrations_forget hr
      have hnotes := notes_forget cmp ⟨desired, wantAttribute⟩ hregs ⟨none, t⟩
      dsimp only at hnotes ⊢
      rw [hnotes]
      rfl

/-- So does one that is cut short, unless the list it was filling in had flags. -/
theorem addInterfaceRaises_forget (I : ι) (desired : Option String) (done : Nat)
    {stage : Stage T} (hstage : ∀ l, stage = .made l → l.forget = l) (t : OperationTable T) :
    addInterfaceRaises cmp prims repo I desired done stage t.forget =
      (addInterfaceRaises cmp prims repo I desired done stage t).map forget := by
  unfold addInterfaceRaises
  cases Desired.wantsAttribute desired with
  | error cause => rfl
  | ok wantAttribute =>
      have hregs : ∀ r ∈ (registrations prims repo I).take done, r.list.forget = r.list :=
        fun r hr => registrations_forget (List.mem_of_mem_take hr)
      have hnotes := notes_forget cmp ⟨desired, wantAttribute⟩ hregs ⟨none, t⟩
      have hleave : ∀ (t : OperationTable T) (next : Option (Registration T)),
          stage.leave cmp next t.forget = (stage.leave cmp next t).forget := by
        intro t next
        cases next with
        | none => cases stage <;> rfl
        | some r =>
            cases stage with
            | between => rfl
            | found => rfl
            | made l =>
                have hnew := mapLists_newList (f := ArgList.forget) (t := t.findOrAdd cmp r.name) l
                rw [hstage l rfl] at hnew
                exact hnew.symm
      change Except.ok _ = Except.ok _
      dsimp only at hnotes ⊢
      rw [hnotes, hleave]

end Registrations

/-! ## What holds of every list -/

/-- `Q` of every list in the table and its count, whoever points to it. -/
def AllLists (Q : ArgList T → Int → Prop) (t : OperationTable T) : Prop :=
  ∀ a l n, t.lists a = some (l, n) → Q l n

/-- `Q` stands a reference taken, and one given back that is not the last. -/
structure Counting (Q : ArgList T → Int → Prop) : Prop where
  up : ∀ l n, Q l n → Q l (n + 1)
  down : ∀ l n, Q l n → n - 1 ≠ 0 → Q l (n - 1)

theorem Counting.uncounted (P : ArgList T → Prop) : Counting fun l _ => P l :=
  ⟨fun _ _ h => h, fun _ _ h _ => h⟩

theorem Counting.positive : Counting fun (_ : ArgList T) n => 0 < n :=
  ⟨fun _ _ h => by omega, fun _ _ h hne => by omega⟩

namespace AllLists

variable {cmp : Strcmp} {Q : ArgList T → Int → Prop} {t : OperationTable T}

theorem empty : (empty : OperationTable T).AllLists Q := by
  intro a l n hlist
  cases hlist

theorem newList (h : t.AllLists Q) {l : ArgList T} (hl : Q l 1) : (t.newList l).AllLists Q := by
  intro a l' n hlist
  by_cases ha : a = t.fresh
  · have hself : (t.newList l).lists a = some (l, 1) := by
      rw [ha]
      exact Function.update_self ..
    rw [hself] at hlist
    cases hlist
    exact hl
  · exact h a l' n ((Function.update_of_ne ha _ _).symm.trans hlist)

variable (hQ : Counting Q)

include hQ

theorem addRef (h : t.AllLists Q) (a : Nat) : (t.addRef a).AllLists Q := by
  intro b l n hlist
  simp only [OperationTable.addRef] at hlist
  split at hlist
  · obtain ⟨c, hc, heq⟩ := Option.map_eq_some_iff.mp hlist
    cases heq
    exact hQ.up _ _ (h b c.1 c.2 hc)
  · exact h b l n hlist

theorem removeRef (h : t.AllLists Q) (a : Nat) : (t.removeRef a).AllLists Q := by
  intro b l n hlist
  simp only [OperationTable.removeRef] at hlist
  split at hlist
  · obtain ⟨c, hc, heq⟩ := Option.bind_eq_some_iff.mp hlist
    split at heq
    · cases heq
    · next hne =>
        cases heq
        exact hQ.down _ _ (h b c.1 c.2 hc) hne
  · exact h b l n hlist

theorem addSet (h : t.AllLists Q) (o r : String) (a : Nat) :
    (t.addSet cmp o r a).AllLists Q := addRef hQ h a

theorem addRefIf (h : t.AllLists Q) (wanted : Bool) (a : Nat) :
    (t.addRefIf wanted a).AllLists Q := by
  cases wanted with
  | false => exact h
  | true => exact addRef hQ h a

theorem foldl_addSet (h : t.AllLists Q) (o : String) (a : Nat) (ids : List String) :
    (ids.foldl (fun t r => t.addSet cmp o r a) t).AllLists Q := by
  induction ids generalizing t with
  | nil => exact h
  | cons r ids ih => exact ih (addSet hQ h o r a)

theorem register (h : t.AllLists Q) {l : ArgList T} (hl : Q l 1) (o : String)
    (ids : List String) (wanted : Bool) : (t.register cmp o l ids wanted).AllLists Q := by
  have hnew : ((t.findOrAdd cmp o).newList l).AllLists Q := newList h hl
  have hwanted := addRefIf hQ hnew wanted t.fresh
  exact removeRef hQ (foldl_addSet hQ hwanted o t.fresh ids) t.fresh

theorem find (h : t.AllLists Q) (o r : String) : (t.find cmp o r).2.AllLists Q := by
  unfold OperationTable.find
  split
  · exact h
  · split
    · exact h
    · exact addRef hQ h _

theorem notes (cmp : Strcmp) (d : Desired) {regs : List (Registration T)} {p : Progress T}
    (h : p.table.AllLists Q) (hregs : ∀ r ∈ regs, Q r.list 1) :
    (regs.foldl (note cmp d) p).table.AllLists Q := by
  induction regs generalizing p with
  | nil => exact h
  | cons r regs ih =>
      have hone : (note cmp d p r).table.AllLists Q :=
        register hQ h (hregs r (List.mem_cons_self ..)) r.name r.ids _
      exact ih hone fun r hr => hregs r (List.mem_cons_of_mem _ hr)

variable {prims : Primitives T} {repo : Repository ι T}

/-- The lists `add_interface` makes have no flags; that is all `Q` has to bear. -/
theorem addInterface (h : t.AllLists Q) (hnew : ∀ l : ArgList T, l.forget = l → Q l 1) {I : ι}
    {desired : Option String} {p : Option Nat × OperationTable T}
    (hadd : addInterface cmp prims repo I desired t = .ok p) : p.2.AllLists Q := by
  cases hwant : Desired.wantsAttribute desired with
  | error cause =>
      unfold OperationTable.addInterface at hadd
      rw [hwant] at hadd
      cases hadd
  | ok wantAttribute =>
      rw [addInterface_eq hwant] at hadd
      cases hadd
      exact notes hQ cmp _ h fun r hr => hnew _ (registrations_forget hr)

theorem addInterfaceRaises (h : t.AllLists Q) (hnew : ∀ l : ArgList T, l.forget = l → Q l 1)
    {I : ι} {desired : Option String} {done : Nat} {stage : Stage T}
    (hstage : ∀ l, stage = .made l → Q l 1) {t' : OperationTable T}
    (hadd : addInterfaceRaises cmp prims repo I desired done stage t = .ok t') :
    t'.AllLists Q := by
  unfold OperationTable.addInterfaceRaises at hadd
  obtain ⟨wantAttribute, -, hadd⟩ := ok_of_bind hadd
  cases hadd
  have hregs : ∀ r ∈ (registrations prims repo I).take done, Q r.list 1 :=
    fun r hr => hnew _ (registrations_forget (List.mem_of_mem_take hr))
  have hnotes := @notes T Q hQ cmp ⟨desired, wantAttribute⟩ _ ⟨none, t⟩ h hregs
  generalize ((registrations prims repo I).take done).foldl _ _ = p at hnotes ⊢
  cases stage with
  | between => exact hnotes
  | found =>
      cases (registrations prims repo I)[done]? with
      | none => exact hnotes
      | some r => exact hnotes
  | made l =>
      cases (registrations prims repo I)[done]? with
      | none => exact hnotes
      | some r => exact @newList T Q (p.table.findOrAdd cmp r.name) hnotes l (hstage l rfl)

theorem create (cmp : Strcmp) (prims : Primitives T)
    (hnew : ∀ l : ArgList T, l.forget = l → Q l 1) :
    (OperationTable.create cmp prims).AllLists Q := by
  rw [create_eq]
  have hfirst := @register T cmp Q OperationTable.empty hQ AllLists.empty prims.isA
    (hnew _ (ArgList.forget_create ..)) "_is_a" ["IDL:org.omg/CORBA/Object:1.0"] false
  exact register hQ hfirst (hnew _ (ArgList.forget_create ..)) _ _ _

end AllLists

end OperationTable

/-! ## Right flags -/

namespace GenericEvaluator

/-- The argument a flag belongs to. -/
def FlagPlace.read (place : FlagPlace) (l : ArgList Nat) : Option (Arg Nat) :=
  match place with
  | .argument i => l.args[i]?
  | .result => some l.result
  | .exception i => l.exceptions[i]?

theorem FlagPlace.read_forget (place : FlagPlace) (l : ArgList Nat) :
    place.read l.forget = (place.read l).map Arg.forget := by
  cases place <;> simp [FlagPlace.read, ArgList.forget]

theorem FlagPlace.write_forget (place : FlagPlace) (flag : Bool) (l : ArgList Nat) :
    (place.write flag l).forget = l.forget := by
  have hmodify : ∀ (args : List (Arg Nat)) (i : Nat),
      (args.modify i fun arg => { arg with mustProxy := if flag then 1 else 0 }).map Arg.forget =
        args.map Arg.forget := by
    intro args i
    induction args generalizing i with
    | nil => simp
    | cons arg args ih =>
        cases i with
        | zero => rfl
        | succ i => simp [ih]
  cases place <;> simp [FlagPlace.write, ArgList.forget, hmodify, Arg.forget]

/-- Behind a write each flag is the one written or was there before. -/
theorem FlagPlace.read_write {place place' : FlagPlace} {flag : Bool} {l : ArgList Nat}
    {arg : Arg Nat} (h : place'.read (place.write flag l) = some arg) :
    place'.read l = some arg ∨
      ∃ old, place.read l = some old ∧
        arg = { old with mustProxy := if flag then 1 else 0 } := by
  have hmodify : ∀ (args : List (Arg Nat)) (i j : Nat),
      (args.modify i fun arg => { arg with mustProxy := if flag then 1 else 0 })[j]? = some arg →
      args[j]? = some arg ∨ ∃ old, args[i]? = some old ∧
        arg = { old with mustProxy := if flag then 1 else 0 } := by
    intro args i j h
    rw [List.getElem?_modify] at h
    split at h
    · next hij =>
        obtain ⟨old, hold, rfl⟩ := Option.map_eq_some_iff.mp h
        exact .inr ⟨old, hij ▸ hold, rfl⟩
    · exact .inl (by simpa using h)
  cases place with
  | argument i =>
      cases place' with
      | argument j => exact hmodify _ _ _ h
      | result => exact .inl h
      | exception j => exact .inl h
  | result =>
      cases place' with
      | argument j => exact .inl h
      | result => exact .inr ⟨l.result, rfl, (Option.some.inj h).symm⟩
      | exception j => exact .inl h
  | exception i =>
      cases place' with
      | argument j => exact .inl h
      | result => exact .inl h
      | exception j => exact hmodify _ _ _ h

end GenericEvaluator

/-- The flag is unknown, or says whether `has_objref` finds a reference, given
the stack for it. -/
def Arg.Right (g : TypeGraph) (arg : Arg Nat) : Prop :=
  arg.mustProxy = -1 ∨ ∃ tc, arg.tc = some tc ∧
    (arg.mustProxy = 1 ∧ g.ReachesPlainly tc ∨ arg.mustProxy = 0 ∧ ¬ g.ReachesPlainly tc)

def ArgList.Right (g : TypeGraph) (l : ArgList Nat) : Prop :=
  ∀ (place : GenericEvaluator.FlagPlace) (arg : Arg Nat), place.read l = some arg → arg.Right g

theorem ArgList.Right.of_forget {g : TypeGraph} {l : ArgList Nat} (h : l.forget = l) :
    l.Right g := by
  intro place arg hread
  rw [← h, place.read_forget] at hread
  obtain ⟨old, -, rfl⟩ := Option.map_eq_some_iff.mp hread
  exact .inl rfl

/-- What `has_objref` has answered may be written. -/
theorem ArgList.Right.write {g : TypeGraph} {l : ArgList Nat} (h : l.Right g)
    {place : GenericEvaluator.FlagPlace} {flag : Bool} {tc depth : Nat}
    (htc : ∀ arg, place.read l = some arg → arg.tc = some tc)
    (hflag : g.hasObjref depth tc = .ok flag) : (place.write flag l).Right g := by
  intro place' arg hread
  rcases GenericEvaluator.FlagPlace.read_write hread with hold | ⟨old, hold, rfl⟩
  · exact h place' arg hold
  · refine .inr ⟨tc, htc old hold, ?_⟩
    have hcorrect := TypeGraph.hasObjref_correct hflag
    cases flag with
    | true => exact .inl ⟨rfl, hcorrect.mp rfl⟩
    | false => exact .inr ⟨rfl, fun hreaches => absurd (hcorrect.mpr hreaches) (by decide)⟩

end Lorica
