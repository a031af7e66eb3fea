import Lorica.ListReferences

/-!
Runs of the operation table between its callers: lookups and additions whose
callers hold what they get until they give it back, and the requests, replies
and user exceptions that `GenericEvaluator` works on.
-/

namespace Lorica

open Machine

/-! ## What an evaluation does to the table -/

namespace OperationTable

variable {T : Type} {t t' t'' : OperationTable T}

/-- The same tree and the same counts; the flags in the lists may differ. -/
structure SameCounts (t t' : OperationTable T) : Prop where
  head : t'.head = t.head
  fresh : t'.fresh = t.fresh
  counts : ∀ a, (t'.lists a).map Prod.snd = (t.lists a).map Prod.snd

theorem SameCounts.refl (t : OperationTable T) : t.SameCounts t := ⟨rfl, rfl, fun _ => rfl⟩

theorem SameCounts.surplus (h : t.SameCounts t') : t'.surplus = t.surplus := by
  funext a
  simp only [OperationTable.surplus, refcount, nodes, h.counts, h.head]

theorem SameCounts.tidy (h : t.SameCounts t') (ht : t.Tidy) : t'.Tidy := by
  intro a ha
  obtain ⟨hlists, hnodes⟩ := ht a (h.fresh ▸ ha)
  have hcount := h.counts a
  rw [hlists, Option.map_none, Option.map_eq_none_iff] at hcount
  exact ⟨hcount, by rw [nodes, h.head]; exact hnodes⟩

end OperationTable

namespace GenericEvaluator

open OperationTable

variable {ι : Type} (ev : GenericEvaluator ι) {t : OperationTable Nat}

/-- The table has the counts it had when the list was found. -/
def Found (t : OperationTable Nat) (s : Frame) : Prop := t.SameCounts s.table

section Keeping

theorem mark_found (a : Nat) (place : FlagPlace) (flag : Bool) :
    Action.Keeps (Found t) (mark a place flag) := by
  refine Action.Keeps.modify fun s hs => ⟨hs.head, hs.fresh, fun b => ?_⟩
  rw [← hs.counts b]
  dsimp only
  split
  · rw [Option.map_map]
    rfl
  · rfl

theorem mustProxy_found (a : Nat) (place : FlagPlace) (arg : Arg Nat) :
    Action.Keeps (Found t) (ev.mustProxy a place arg) :=
  mustProxy_keeps fun _ flag _ _ => mark_found a place flag

theorem proxifyParams_found (f : Bool) (a : Nat) (l : ArgList Nat) (direction : Flags) :
    Action.Keeps (Found t) (ev.proxifyParams f a l direction) := by
  unfold proxifyParams
  split
  · exact Action.Keeps.pure _
  · refine Action.Keeps.get.bind fun s => ?_
    exact paramsLoop_keeps (fun _ _ hs => hs) (fun _ _ hs => hs)
      (fun j arg _ => ev.mustProxy_found a _ arg) [] s.args

theorem proxifyResult_found (f : Bool) (a : Nat) (l : ArgList Nat) :
    Action.Keeps (Found t) (ev.proxifyResult f a l) := by
  refine (ev.mustProxy_found a .result l.result).bind fun must => ?_
  cases must with
  | false => exact Action.Keeps.pure _
  | true =>
      refine Action.Keeps.get.bind fun s => ?_
      cases s.result with
      | none => exact Action.Keeps.fail _
      | some nv =>
          refine (onRegistry_keeps _ fun _ _ hs => hs).bind fun v => ?_
          exact Action.Keeps.modify fun _ hs => hs

theorem prepareReply_found (l : ArgList Nat) : Action.Keeps (Found t) (ev.prepareReply l) := by
  unfold prepareReply
  split
  · exact Action.Keeps.pure _
  · refine Action.Keeps.bind (Action.Keeps.modify fun _ hs => hs) fun _ => ?_
    unfold prepareResult
    cases l.result.tc with
    | none => exact Action.Keeps.fail _
    | some tc =>
        dsimp only
        split
        · exact Action.Keeps.pure _
        · exact Action.Keeps.modify fun _ hs => hs

theorem setArguments_found (args : Except Exn (List (NamedValue Reference))) :
    Action.Keeps (Found t) (setArguments args) := by
  cases args with
  | error e => exact Action.Keeps.raise _
  | ok args => exact Action.Keeps.modify fun _ hs => hs

theorem proxifyException_found (f : Bool) (a i : Nat) (arg : Arg Nat)
    (decoded : Except Exn (NamedValue Reference)) :
    Action.Keeps (Found t) (ev.proxifyException f a i arg decoded) := by
  cases decoded with
  | error e => exact Action.Keeps.raise _
  | ok nv =>
      refine (proxifyIfMust_keeps (fun _ _ hs => hs) (ev.mustProxy_found a _ arg) nv).bind
        fun nv => ?_
      exact Action.Keeps.bind (Action.Keeps.modify fun _ hs => hs) fun _ => Action.Keeps.pure _

end Keeping

section Evaluating

variable (found : OperationTable Nat → Except Fault (Nat × ArgList Nat × OperationTable Nat))
  {rest : Nat × ArgList Nat → EvalM Bool} {s s' : Frame} {outcome : Outcome Exn Bool}

/-- An evaluation that comes to its end has found its list, and leaves the counts
as they were then. -/
theorem evaluation_found (hrest : ∀ t p, Action.Keeps (Found t) (rest p))
    (hrun : (Action.get >>= fun s => argList (found s.table) >>= rest : EvalM Bool).run s =
      (outcome, s'))
    (hend : ∀ cause, outcome ≠ .fault cause) :
    ∃ a l t, found s.table = .ok (a, l, t) ∧ t.SameCounts s'.table := by
  rw [Action.run_bind_ok (Action.run_get s)] at hrun
  cases hfound : found s.table with
  | error cause =>
      rw [hfound, Action.run_bind_fault rfl] at hrun
      exact absurd (Prod.mk.inj hrun).1.symm (hend cause)
  | ok p =>
      obtain ⟨a, l, t⟩ := p
      rw [hfound, Action.run_bind_ok rfl] at hrun
      have hkept : Found t { s with table := t } := SameCounts.refl t
      exact ⟨a, l, t, rfl, (hrest t (a, l)).run hkept hrun hend⟩

theorem evaluateRequest_found {operation : String} {reqPoa : Poa}
    {decoded : Except Exn (List (Value ObjRef))}
    (hrun : (ev.evaluateRequest operation reqPoa decoded).run s = (outcome, s'))
    (hend : ∀ cause, outcome ≠ .fault cause) :
    ∃ a l t, deref (ev.lookup operation s.table) = .ok (a, l, t) ∧ t.SameCounts s'.table := by
  rw [evaluateRequest_eq] at hrun
  refine evaluation_found (fun t => deref (ev.lookup operation t)) ?_ hrun hend
  intro t p
  refine Action.Keeps.bind (Action.Keeps.ofExcept _) fun items => ?_
  refine (setArguments_found _).bind fun _ => ?_
  refine (ev.proxifyParams_found _ p.1 p.2 .argIn).bind fun _ => ?_
  exact (ev.prepareReply_found p.2).bind fun _ => Action.Keeps.pure _

theorem evaluateReply_found {operation : String} {reqPoa : Poa}
    (hrun : (ev.evaluateReply operation reqPoa).run s = (outcome, s'))
    (hend : ∀ cause, outcome ≠ .fault cause) :
    ∃ a l t, deref (.ok (s.table.find ev.cmp operation ev.typeId)) = .ok (a, l, t) ∧
      t.SameCounts s'.table := by
  refine evaluation_found (fun t => deref (.ok (t.find ev.cmp operation ev.typeId))) ?_ hrun hend
  intro t p
  refine (ev.proxifyResult_found _ p.1 p.2).bind fun _ => ?_
  exact (ev.proxifyParams_found _ p.1 p.2 .argOut).bind fun _ => Action.Keeps.pure _

theorem evaluateException_found {operation : String} {reqPoa : Poa} {exType : String}
    {decoded : Nat → Except Exn (Value ObjRef)}
    (hrun : (ev.evaluateException operation reqPoa exType decoded).run s = (outcome, s'))
    (hend : ∀ cause, outcome ≠ .fault cause) :
    ∃ a l t, deref (.ok (s.table.find ev.cmp operation ev.typeId)) = .ok (a, l, t) ∧
      t.SameCounts s'.table := by
  refine evaluation_found (fun t => deref (.ok (t.find ev.cmp operation ev.typeId))) ?_ hrun hend
  intro t p
  dsimp only
  cases ev.findException exType 0 p.2.exceptions with
  | none => exact Action.Keeps.pure _
  | some excep => exact ev.proxifyException_found _ p.1 excep.1 excep.2.1 _

end Evaluating

section Spending

variable {ev} {operation : String} {a : Nat} {l : ArgList Nat} {t' : OperationTable Nat}

theorem deref_ok {found : Except Fault (Option Nat × OperationTable Nat)}
    (h : deref found = .ok (a, l, t')) :
    found = .ok (some a, t') ∧ (t'.lists a).isSome := by
  unfold deref at h
  split at h
  · cases h
  · cases h
  · split at h
    · cases h
    · next hl =>
        cases h
        exact ⟨rfl, by rw [hl]; rfl⟩

theorem find_cases (cmp : Strcmp) (o r : String) (t : OperationTable Nat) :
    t.find cmp o r = (none, t) ∨ ∃ a, t.find cmp o r = (some a, t.addRef a) := by
  unfold OperationTable.find
  split
  · exact .inl rfl
  · split
    · exact .inl rfl
    · exact .inr ⟨_, rfl⟩

theorem lookupBy_missed (add : OperationTable Nat → Added)
    (hnone : (t.find ev.cmp operation ev.typeId).1 = none) :
    ev.lookupBy add operation t = add t := by
  unfold lookupBy
  rcases find_cases ev.cmp operation ev.typeId t with hmiss | ⟨a, hhit⟩
  · rw [hmiss]
  · rw [hhit] at hnone
    cases hnone

theorem addRef_tidy (ht : t.Tidy) (a : Nat) : (t.addRef a).Tidy := by
  intro b hb
  obtain ⟨hlists, hnodes⟩ := ht b hb
  refine ⟨?_, hnodes⟩
  simp [addRef, hlists]

theorem addRef_isSome {b : Nat} : ((t.addRef a).lists b).isSome = (t.lists b).isSome := by
  unfold addRef
  dsimp only
  split
  · exact Option.isSome_map
  · rfl

/-- The list that `find` hands out is counted once more. -/
theorem find_spends (ht : t.Tidy)
    (h : deref (.ok (t.find ev.cmp operation ev.typeId)) = .ok (a, l, t')) :
    t'.Tidy ∧ t.surplus < t'.surplus := by
  obtain ⟨hfound, hlive⟩ := deref_ok h
  rcases find_cases ev.cmp operation ev.typeId t with hnone | ⟨b, hsome⟩
  · rw [hnone] at hfound
    cases hfound
  · rw [hsome] at hfound
    obtain ⟨hb, rfl⟩ := Prod.mk.inj (Except.ok.inj hfound)
    obtain rfl := Option.some.inj hb
    rw [addRef_isSome] at hlive
    rw [addRef_surplus hlive]
    exact ⟨addRef_tidy ht b, lt_add_of_pos_right _ (reference_pos b)⟩

theorem lookup_spends (ht : t.Tidy) (h : deref (ev.lookup operation t) = .ok (a, l, t')) :
    t'.Tidy ∧ t.surplus < t'.surplus := by
  rcases find_cases ev.cmp operation ev.typeId t with hnone | ⟨b, hsome⟩
  · have hlookup : ev.lookup operation t =
        addInterface ev.cmp ev.prims ev.repo ev.intDef (some operation) t := by
      unfold lookup
      rw [hnone]
    rw [hlookup] at h
    obtain ⟨htidy, honce, htwice⟩ := addInterface_surplus ht (deref_ok h).1
    refine ⟨htidy, ?_⟩
    have hspent := lt_add_of_pos_right t.surplus (reference_pos a)
    rcases Nat.lt_or_ge (wantedAmong (desire (some operation))
      (registrations ev.prims ev.repo ev.intDef)) 2 with hlast | hagain
    · rw [honce (by omega)]
      exact hspent
    · exact hspent.trans (htwice hagain)
  · have hlookup : ev.lookup operation t = .ok (t.find ev.cmp operation ev.typeId) := by
      unfold lookup
      rw [hsome]
    rw [hlookup] at h
    exact find_spends ht h

end Spending

end GenericEvaluator

/-! ## Runs -/

/-- The table, and the references its callers hold, the evaluators apart. -/
structure TableUse where
  table : OperationTable Nat
  held : Nat → Nat

/-- A call that is made and returns or raises. The frame is what an evaluation is
handed besides the table. -/
inductive TableEvent (ι : Type) where
  | find (opname repId : String)
  | addInterface (repo : Repository ι Nat) (intDef : ι) (desired : Option String)
  | addInterfaceRaises (repo : Repository ι Nat) (intDef : ι) (desired : Option String)
      (done : Nat) (stage : OperationTable.Stage Nat)
  | giveBack (a : Nat)
  | request (ev : GenericEvaluator ι) (frame : Frame) (operation : String) (reqPoa : Poa)
      (decoded : Except Exn (List (Value ObjRef)))
  /-- the repository raises in the `add_interface` of `evaluate_request` -/
  | requestRaises (ev : GenericEvaluator ι) (frame : Frame) (operation : String) (reqPoa : Poa)
      (decoded : Except Exn (List (Value ObjRef))) (e : Exn) (done : Nat)
      (stage : OperationTable.Stage Nat)
  | reply (ev : GenericEvaluator ι) (frame : Frame) (operation : String) (reqPoa : Poa)
  | exception (ev : GenericEvaluator ι) (frame : Frame) (operation : String) (reqPoa : Poa)
      (exType : String) (decoded : Nat → Except Exn (Value ObjRef))

namespace TableUse

open OperationTable

variable {ι : Type}

/-- A list that is handed to a caller. -/
def hold (found : Option Nat) (held : Nat → Nat) : Nat → Nat :=
  match found with
  | none => held
  | some a => Function.update held a (held a + 1)

/-- The end of an evaluation; a fault ends the run. -/
def after (s : TableUse) (frame : Frame) (x : EvalM Bool) : Option TableUse :=
  match x.run { frame with table := s.table } with
  | (.fault _, _) => none
  | (_, frame) => some { s with table := frame.table }

section Step

variable (cmp : Strcmp) (prims : OperationTable.Primitives Nat)

/-- All evaluators use the one table and its `strcmp`. -/
def shared (ev : GenericEvaluator ι) : GenericEvaluator ι :=
  { ev with cmp := cmp, prims := prims }

def cutShort (s : TableUse) (repo : Repository ι Nat) (intDef : ι) (desired : Option String)
    (done : Nat) (stage : OperationTable.Stage Nat) : Option TableUse :=
  (addInterfaceRaises cmp prims repo intDef desired done stage s.table).toOption.map
    fun t => { s with table := t }

/-- `evaluate_request` when the repository raises. -/
def requestRaising (ev : GenericEvaluator ι) (operation : String) (reqPoa : Poa)
    (decoded : Except Exn (List (Value ObjRef))) (e : Exn) (done : Nat)
    (stage : OperationTable.Stage Nat) : EvalM Bool :=
  (shared cmp prims ev).evaluateRequestBy
    (fun t => (addInterfaceRaises cmp prims ev.repo ev.intDef (some operation) done stage t).map
      fun t => (.error e, t)) operation reqPoa decoded

def step (s : TableUse) : TableEvent ι → Option TableUse
  | .find opname repId =>
      let (found, t) := s.table.find cmp opname repId
      some ⟨t, hold found s.held⟩
  | .addInterface repo intDef desired =>
      (OperationTable.addInterface cmp prims repo intDef desired s.table).toOption.map
        fun (result, t) => ⟨t, hold result s.held⟩
  | .addInterfaceRaises repo intDef desired done stage =>
      s.cutShort cmp prims repo intDef desired done stage
  | .giveBack a =>
      if 0 < s.held a then
        some ⟨s.table.removeRef a, Function.update s.held a (s.held a - 1)⟩
      else none
  | .request ev frame operation reqPoa decoded =>
      s.after frame ((shared cmp prims ev).evaluateRequest operation reqPoa decoded)
  | .requestRaises ev frame operation reqPoa decoded e done stage =>
      if (s.table.find cmp operation ev.typeId).1 = none then
        s.after frame (requestRaising cmp prims ev operation reqPoa decoded e done stage)
      else none
  | .reply ev frame operation reqPoa =>
      s.after frame ((shared cmp prims ev).evaluateReply operation reqPoa)
  | .exception ev frame operation reqPoa exType decoded =>
      s.after frame ((shared cmp prims ev).evaluateException operation reqPoa exType decoded)

def system (ι : Type) : System TableUse (TableEvent ι) where
  init s := s = ⟨OperationTable.create cmp prims, fun _ => 0⟩
  step := step cmp prims

/-- Every list is counted once for each node that points to it and once for each
reference a caller holds. -/
def Balanced (s : TableUse) : Prop :=
  ∀ a l n, s.table.lists a = some (l, n) → n = s.table.nodes a + s.held a

/-- An `add_interface` that is cut short before it has taken the wanted list, and
not while it fills in one. -/
def CutCarefully (repo : Repository ι Nat) (intDef : ι) (desired : Option String)
    (done : Nat) (stage : OperationTable.Stage Nat) : Prop :=
  wantedAmong (desire desired) ((registrations prims repo intDef).take done) = 0 ∧
    stage.orphans (registrations prims repo intDef)[done]? = false

/-- The calls that give back what they do not hand on: no evaluation that comes
to a list, and an `add_interface` only if it meets the wanted name at most once. -/
def Careful : TableEvent ι → Prop
  | .find _ _ => True
  | .addInterface repo intDef desired =>
      wantedAmong (desire desired) (registrations prims repo intDef) ≤ 1
  | .addInterfaceRaises repo intDef desired done stage =>
      CutCarefully prims repo intDef desired done stage
  | .giveBack _ => True
  | .request .. => False
  | .requestRaises ev _ operation _ _ _ done stage =>
      CutCarefully prims ev.repo ev.intDef (some operation) done stage
  | .reply .. => False
  | .exception .. => False

end Step

/-- What is counted for nobody. -/
def excess (s : TableUse) : Nat → Int := s.table.surplus - fun a => (s.held a : Int)

section Excess

variable {cmp : Strcmp} {prims : OperationTable.Primitives Nat} {s s' : TableUse}
  {event : TableEvent ι}

theorem hold_excess (t : OperationTable Nat) (found : Option Nat) (held : Nat → Nat) :
    excess ⟨t, hold found held⟩ = t.surplus - (fun a => (held a : Int)) - reference found := by
  funext a
  cases found with
  | none => simp [excess, hold, reference]
  | some b =>
      by_cases hb : a = b
      · subst hb
        simp [excess, hold, reference]
        ring
      · simp [excess, hold, reference, hb]

/-- A list that a caller holds or a node points to is there. -/
theorem lists_isSome (hfair : 0 ≤ s.excess) {a : Nat} (ha : 0 < s.table.nodes a + s.held a) :
    (s.table.lists a).isSome := by
  by_contra hnone
  have hat := hfair a
  have hcount := refcount_of_none (Option.not_isSome_iff_eq_none.mp hnone)
  simp only [excess, OperationTable.surplus, Pi.sub_apply, Pi.zero_apply, hcount] at hat
  omega

theorem balanced_iff_excess (hfair : 0 ≤ s.excess) : s.Balanced ↔ s.excess = 0 := by
  constructor
  · intro hbalanced
    funext a
    have hat := hfair a
    simp only [excess, OperationTable.surplus, Pi.sub_apply, Pi.zero_apply] at hat ⊢
    cases hlist : s.table.lists a with
    | none =>
        rw [refcount_of_none hlist] at hat ⊢
        omega
    | some entry =>
        obtain ⟨l, n⟩ := entry
        have hn := hbalanced a l n hlist
        rw [refcount_of_some hlist]
        omega
  · intro hzero a l n hlist
    have hat := congrFun hzero a
    simp only [excess, OperationTable.surplus, Pi.sub_apply, Pi.zero_apply,
      refcount_of_some hlist] at hat
    omega

theorem ok_of_toOption {ε α : Type} {x : Except ε α} {a : α} (h : x.toOption = some a) :
    x = .ok a := by
  cases x with
  | error e => cases h
  | ok b => exact congrArg Except.ok (Option.some.inj h)

theorem after_spends {frame : Frame} {x : EvalM Bool} (hafter : s.after frame x = some s')
    (hx : ∀ outcome frame', x.run { frame with table := s.table } = (outcome, frame') →
      (∀ cause, outcome ≠ .fault cause) → ∃ t : OperationTable Nat,
        (t.Tidy ∧ s.table.surplus < t.surplus) ∧ t.SameCounts frame'.table) :
    s'.table.Tidy ∧ s.excess < s'.excess := by
  unfold after at hafter
  split at hafter
  · cases hafter
  · next outcome frame' hend hrun =>
      obtain rfl := Option.some.inj hafter
      obtain ⟨t, ⟨htidy, hspent⟩, hsame⟩ := hx outcome frame' hrun
        fun cause hfault => hend cause (hfault ▸ rfl)
      refine ⟨hsame.tidy htidy, ?_⟩
      change s.table.surplus - _ < frame'.table.surplus - _
      rw [hsame.surplus]
      exact sub_lt_sub_right hspent _

theorem cutShort_excess (ht : s.table.Tidy) {repo : Repository ι Nat} {intDef : ι}
    {desired : Option String} {done : Nat} {stage : OperationTable.Stage Nat}
    (hcut : s.cutShort cmp prims repo intDef desired done stage = some s') :
    s'.table.Tidy ∧
      (CutCarefully prims repo intDef desired done stage → s'.excess = s.excess) ∧
      (¬ CutCarefully prims repo intDef desired done stage → s.excess < s'.excess) := by
  obtain ⟨t, hraises, rfl⟩ := Option.map_eq_some_iff.mp hcut
  obtain ⟨htidy, hkept, hlost⟩ := addInterfaceRaises_surplus ht (ok_of_toOption hraises)
  exact ⟨htidy, fun h => congrArg (· - _) (hkept h), fun h => sub_lt_sub_right (hlost h) _⟩

section Raising

variable {ev : GenericEvaluator ι} {frame : Frame} {operation : String} {reqPoa : Poa}
  {decoded : Except Exn (List (Value ObjRef))} {e : Exn} {done : Nat}
  {stage : OperationTable.Stage Nat} {t : OperationTable Nat}

theorem run_requestRaising (hnone : (t.find cmp operation ev.typeId).1 = none) :
    (requestRaising cmp prims ev operation reqPoa decoded e done stage).run
        { frame with table := t } =
      (GenericEvaluator.takeList
          ((addInterfaceRaises cmp prims ev.repo ev.intDef (some operation) done stage t).map
            fun t => (.error e, t)) >>=
        (shared cmp prims ev).forwardRequest reqPoa decoded).run { frame with table := t } := by
  unfold requestRaising GenericEvaluator.evaluateRequestBy
  rw [Action.run_bind_ok (Action.run_get _)]
  dsimp only
  rw [GenericEvaluator.lookupBy_missed _ hnone]

/-- What the table is left with is what the `add_interface` leaves. -/
theorem after_requestRaising (hnone : (s.table.find cmp operation ev.typeId).1 = none) :
    s.after frame (requestRaising cmp prims ev operation reqPoa decoded e done stage) =
      s.cutShort cmp prims ev.repo ev.intDef (some operation) done stage := by
  unfold after cutShort
  rw [run_requestRaising hnone]
  cases addInterfaceRaises cmp prims ev.repo ev.intDef (some operation) done stage s.table with
  | error cause => rfl
  | ok t' => rfl

end Raising

theorem giveBack_excess (hfair : 0 ≤ s.excess) {a : Nat} (ha : 0 < s.held a) :
    excess ⟨s.table.removeRef a, Function.update s.held a (s.held a - 1)⟩ = s.excess := by
  have hlive : (s.table.lists a).isSome := lists_isSome hfair (by omega)
  funext b
  have hnodes : (s.table.removeRef a).nodes b = s.table.nodes b := rfl
  simp only [excess, OperationTable.surplus, Pi.sub_apply, removeRef_refcount hlive, hnodes]
  by_cases hb : b = a
  · subst hb
    rw [Function.update_self, if_pos rfl]
    omega
  · rw [Function.update_of_ne hb, if_neg hb]
    omega

theorem removeRef_tidy {t : OperationTable Nat} (ht : t.Tidy) (a : Nat) :
    (t.removeRef a).Tidy := by
  intro b hb
  obtain ⟨hlists, hnodes⟩ := ht b hb
  refine ⟨?_, hnodes⟩
  simp [removeRef, hlists]

/-- No step lowers what is counted for nobody, and the careful ones keep it. -/
theorem step_excess (ht : s.table.Tidy) (hfair : 0 ≤ s.excess)
    (hstep : s.step cmp prims event = some s') :
    s'.table.Tidy ∧ (Careful prims event → s'.excess = s.excess) ∧
      (¬ Careful prims event → s.excess < s'.excess) := by
  cases event with
  | find opname repId =>
      have hs' : s' = ⟨(s.table.find cmp opname repId).2,
          hold (s.table.find cmp opname repId).1 s.held⟩ := (Option.some.inj hstep).symm
      rcases GenericEvaluator.find_cases cmp opname repId s.table with hnone | ⟨a, hsome⟩
      · rw [hs', hnone]
        exact ⟨ht, fun _ => rfl, fun h => absurd trivial h⟩
      · have hfound : (s.table.find cmp opname repId).1 = some a := by rw [hsome]
        have hlive := lists_isSome hfair (a := a) (by have := nodes_pos hfound; omega)
        rw [hs', hsome]
        refine ⟨GenericEvaluator.addRef_tidy ht a, fun _ => ?_, fun h => absurd trivial h⟩
        rw [hold_excess, addRef_surplus hlive]
        change _ + reference (some a) - _ - reference (some a) = s.table.surplus - _
        abel
  | addInterface repo intDef desired =>
      obtain ⟨⟨result, t⟩, hadd, rfl⟩ := Option.map_eq_some_iff.mp hstep
      obtain ⟨htidy, honce, htwice⟩ := addInterface_surplus ht (ok_of_toOption hadd)
      refine ⟨htidy, fun h => ?_, fun h => ?_⟩
      · rw [hold_excess, honce h, sub_right_comm, add_sub_cancel_right]
        rfl
      · rw [hold_excess, sub_right_comm]
        exact sub_lt_sub_right (lt_sub_iff_add_lt.mpr (htwice (not_le.mp h))) _
  | addInterfaceRaises repo intDef desired done stage => exact cutShort_excess ht hstep
  | giveBack a =>
      obtain ⟨ha, hstep⟩ := Option.ite_none_right_eq_some.mp hstep
      obtain rfl := Option.some.inj hstep
      exact ⟨removeRef_tidy ht a, fun _ => giveBack_excess hfair ha, fun h => absurd trivial h⟩
  | request ev frame operation reqPoa decoded =>
      have hspent := after_spends hstep fun outcome frame' hrun hend => by
        obtain ⟨a, l, t, hfound, hsame⟩ := GenericEvaluator.evaluateRequest_found _ hrun hend
        exact ⟨t, GenericEvaluator.lookup_spends ht hfound, hsame⟩
      exact ⟨hspent.1, fun h => absurd h not_false, fun _ => hspent.2⟩
  | requestRaises ev frame operation reqPoa decoded e done stage =>
      obtain ⟨hnone, hcut⟩ := Option.ite_none_right_eq_some.mp hstep
      exact cutShort_excess ht ((after_requestRaising hnone).symm.trans hcut)
  | reply ev frame operation reqPoa =>
      have hspent := after_spends hstep fun outcome frame' hrun hend => by
        obtain ⟨a, l, t, hfound, hsame⟩ := GenericEvaluator.evaluateReply_found _ hrun hend
        exact ⟨t, GenericEvaluator.find_spends ht hfound, hsame⟩
      exact ⟨hspent.1, fun h => absurd h not_false, fun _ => hspent.2⟩
  | exception ev frame operation reqPoa exType decoded =>
      have hspent := after_spends hstep fun outcome frame' hrun hend => by
        obtain ⟨a, l, t, hfound, hsame⟩ := GenericEvaluator.evaluateException_found _ hrun hend
        exact ⟨t, GenericEvaluator.find_spends ht hfound, hsame⟩
      exact ⟨hspent.1, fun h => absurd h not_false, fun _ => hspent.2⟩

theorem create_surplus (cmp : Strcmp) (prims : OperationTable.Primitives Nat) :
    (OperationTable.create cmp prims).Tidy ∧ (OperationTable.create cmp prims).surplus = 0 := by
  rw [create_eq]
  have hfirst := tidy_empty.register_surplus cmp "_is_a" prims.isA
    ["IDL:org.omg/CORBA/Object:1.0"] false (by simp)
  have htidy := tidy_empty.register cmp "_is_a" prims.isA
    ["IDL:org.omg/CORBA/Object:1.0"] false
  refine ⟨htidy.register _ _ _ _ _, ?_⟩
  rw [htidy.register_surplus _ _ _ _ _ (by simp), hfirst]
  rfl

theorem excess_of_careful
    (h : (system cmp prims ι).Reach (fun _ event => Careful prims event) s) :
    s.table.Tidy ∧ s.excess = 0 := by
  refine System.Reach.invariant (I := fun s => s.table.Tidy ∧ s.excess = 0) ?_ ?_ h
  · rintro s rfl
    obtain ⟨htidy, hsurplus⟩ := create_surplus cmp prims
    refine ⟨htidy, ?_⟩
    rw [excess, hsurplus]
    rfl
  · rintro s event s' ⟨htidy, hzero⟩ hcareful hstep
    obtain ⟨htidy', hkept, -⟩ := step_excess htidy hzero.ge hstep
    exact ⟨htidy', (hkept hcareful).trans hzero⟩

/-- What is counted for nobody is so for good. -/
theorem reach_careful_or (h : (system cmp prims ι).Reachable s) :
    s.table.Tidy ∧ ((system cmp prims ι).Reach (fun _ event => Careful prims event) s ∨
      0 < s.excess) := by
  refine System.Reach.invariant (I := fun s => s.table.Tidy ∧
    ((system cmp prims ι).Reach (fun _ event => Careful prims event) s ∨ 0 < s.excess)) ?_ ?_ h
  · rintro s rfl
    exact ⟨(create_surplus cmp prims).1, .inl (.start rfl)⟩
  · rintro s event s' ⟨htidy, hbefore⟩ - hstep
    have hfair : 0 ≤ s.excess := by
      rcases hbefore with hreach | hpos
      · exact (excess_of_careful hreach).2.ge
      · exact hpos.le
    obtain ⟨htidy', hkept, hlost⟩ := step_excess htidy hfair hstep
    refine ⟨htidy', ?_⟩
    by_cases hcareful : Careful prims event
    · rcases hbefore with hreach | hpos
      · exact .inl (.next hreach hcareful hstep)
      · exact .inr ((hkept hcareful).symm ▸ hpos)
    · exact .inr (hfair.trans_lt (hlost hcareful))

end Excess

/-- The references balance in exactly those runs in which every step is a careful
one. -/
theorem balanced_iff_careful (ι : Type) (cmp : Strcmp) (prims : OperationTable.Primitives Nat)
    {s : TableUse} (h : (system cmp prims ι).Reachable s) :
    s.Balanced ↔ (system cmp prims ι).Reach (fun _ event => Careful prims event) s := by
  constructor
  · intro hbalanced
    refine (reach_careful_or h).2.resolve_right fun hpos => ?_
    exact absurd ((balanced_iff_excess hpos.le).mp hbalanced) hpos.ne'
  · intro hcareful
    have hzero := (excess_of_careful hcareful).2
    exact (balanced_iff_excess hzero.ge).mpr hzero

/-! An object that has nothing but the operations every object has. -/

/-- `find`, and the reference given back. -/
def lookedUp : List (TableEvent Unit) :=
  [.find "_is_a" "IDL:org.omg/CORBA/Object:1.0", .giveBack 0]

theorem balanced_iff_careful_looked_up :
    ∃ s : TableUse, (s.table.lists 0).map Prod.snd = some 1 ∧ (s.Balanced ↔
      (system .sign ⟨0, 1, 2⟩ Unit).Reach (fun _ event => Careful ⟨0, 1, 2⟩ event) s) := by
  obtain ⟨s, hs⟩ := Option.isSome_iff_exists.mp (show
    ((system .sign ⟨0, 1, 2⟩ Unit).replay (fun _ _ => True)
      ⟨OperationTable.create .sign ⟨0, 1, 2⟩, fun _ => 0⟩ lookedUp).isSome by decide)
  exact ⟨s, System.replay_read (fun s => (s.table.lists 0).map Prod.snd) hs (by decide),
    balanced_iff_careful Unit .sign ⟨0, 1, 2⟩ (System.Reach.of_replay (.start rfl) _ hs)⟩

def askedTwice : List (TableEvent Unit) :=
  let ask := .request { GenericEvaluator.bareEvaluator with typeId := "IDL:org.omg/CORBA/Object:1.0" }
    GenericEvaluator.bareFrame "_non_existent" ⟨0, true⟩ (.ok [])
  [ask, ask]

/-- Two requests that are worked on to the end leave two references on a list with
one node, and nobody holds any. -/
theorem not_balanced_asked_twice :
    ∃ s : TableUse, (system .sign ⟨0, 1, 2⟩ Unit).Reachable s ∧
      (s.table.lists 1).map Prod.snd = some 3 ∧ s.table.nodes 1 = 1 ∧ s.held 1 = 0 ∧
      ¬ s.Balanced := by
  obtain ⟨s, hs⟩ := Option.isSome_iff_exists.mp (show
    ((system .sign ⟨0, 1, 2⟩ Unit).replay (fun _ _ => True)
      ⟨OperationTable.create .sign ⟨0, 1, 2⟩, fun _ => 0⟩ askedTwice).isSome by decide)
  have hcount := System.replay_read (fun s => (s.table.lists 1).map Prod.snd) hs
    (a := some 3) (by decide)
  have hnodes := System.replay_read (fun s => s.table.nodes 1) hs (a := 1) (by decide)
  have hheld := System.replay_read (fun s => s.held 1) hs (a := 0) (by decide)
  refine ⟨s, System.Reach.of_replay (.start rfl) _ hs, hcount, hnodes, hheld, ?_⟩
  intro hbalanced
  obtain ⟨⟨l, n⟩, hlist, hn⟩ := Option.map_eq_some_iff.mp hcount
  have hequal := hbalanced 1 l n hlist
  rw [hnodes, hheld, show n = 3 from hn] at hequal
  exact absurd hequal (by decide)

end TableUse

end Lorica
