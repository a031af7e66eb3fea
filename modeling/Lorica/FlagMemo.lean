import Lorica.TableFlags
import Lorica.Firewall
import Lorica.Lib.Tracking

/-!
`must_proxy_` is a memo: what `has_objref` said about a type is noted in the
list the type stands in, and not asked again. The evaluators are compared with
ones that find every note wiped off before each call.
-/

namespace Lorica

open Machine

namespace GenericEvaluator

variable {ι : Type}

/-! ## Frames that differ in the flags -/

/-- The flags of the first table are right; apart from flags nothing differs. -/
structure Alike (g : TypeGraph) (s t : Frame) : Prop where
  right : s.table.AllLists (fun l _ => l.Right g)
  forget : s.table.forget = t.table.forget
  reg : s.reg = t.reg
  values : s.values = t.values

/-- The table has not changed but for its flags. -/
structure AlikeAt (g : TypeGraph) (shape : OperationTable Nat) (s t : Frame) : Prop
    extends Alike g s t where
  shape : s.table.forget = shape

/-- Two commands for one purpose on frames that differ in the flags. -/
def Matching {α : Type} (g : TypeGraph) (shape : OperationTable Nat) (x y : EvalM α) : Prop :=
  Action.Tracks (AlikeAt g shape) x y (fun a b s t => a = b ∧ AlikeAt g shape s t) (Alike g)

namespace Matching

variable {g : TypeGraph} {shape : OperationTable Nat} {α β : Type}

theorem pure (a : α) : Matching g shape (pure a : EvalM α) (pure a) :=
  Action.Tracks.pure fun _ _ hst => ⟨rfl, hst⟩

theorem raise (e : Exn) : Matching g shape (Action.raise e : EvalM α) (Action.raise e) :=
  Action.Tracks.raise fun _ _ hst => hst.toAlike

theorem fail (cause : Fault) {x : EvalM α} : Matching g shape x (Action.fail cause) :=
  Action.Tracks.fail

theorem bind {x y : EvalM α} {f f' : α → EvalM β} (hxy : Matching g shape x y)
    (hrest : ∀ a, Matching g shape (f a) (f' a)) : Matching g shape (x >>= f) (y >>= f') := by
  refine Action.Tracks.bind hxy fun a b s t hst => ?_
  obtain ⟨rfl, hst⟩ := hst
  exact hrest a s t hst

theorem modify {f f' : Frame → Frame}
    (h : ∀ s t, AlikeAt g shape s t → AlikeAt g shape (f s) (f' t)) :
    Matching g shape (Action.modify f) (Action.modify f') :=
  Action.Tracks.modify fun s t hst => ⟨rfl, h s t hst⟩

/-- A command on the values of a frame. -/
theorem onValues {f : Frame → Frame} (put : Values → Values)
    (hput : ∀ s, (f s).values = put s.values) (htable : ∀ s, (f s).table = s.table)
    (hreg : ∀ s, (f s).reg = s.reg) :
    Matching g shape (Action.modify f) (Action.modify f) := by
  refine .modify fun s t hst => ⟨⟨?_, ?_, ?_, ?_⟩, ?_⟩
  · rw [htable]
    exact hst.right
  · rw [htable, htable]
    exact hst.forget
  · rw [hreg, hreg]
    exact hst.reg
  · rw [hput, hput, hst.values]
  · rw [htable]
    exact hst.shape

theorem get {f f' : Frame → EvalM α}
    (h : ∀ s t, AlikeAt g shape s t → Matching g shape (f s) (f' t)) :
    Matching g shape (Action.get >>= f) (Action.get >>= f') :=
  Action.Tracks.get fun s t hst =>
    (h s t hst).weaken (fun _ _ heq => heq.1 ▸ heq.2 ▸ hst) fun _ _ _ _ hq => hq

theorem onRegistry (x : RegistryM α) :
    Matching g shape (onRegistry x) (onRegistry x) :=
  Action.Tracks.zoom x (fun _ _ hst => hst.reg)
    (fun _ _ _ hst => ⟨⟨hst.right, hst.forget, rfl, hst.values⟩, hst.shape⟩)
    fun _ _ hst => hst.toAlike

end Matching

/-! ## A flag that is read and one that is found out -/

/-- The table behind `must_proxy_ = flag`. -/
def marked (a : Nat) (place : FlagPlace) (flag : Bool) (t : OperationTable Nat) :
    OperationTable Nat :=
  { t with lists := fun b =>
      if b = a then (t.lists b).map fun c => (place.write flag c.1, c.2) else t.lists b }

theorem marked_forget (a : Nat) (place : FlagPlace) (flag : Bool) (t : OperationTable Nat) :
    (marked a place flag t).forget = t.forget := by
  refine OperationTable.mapLists_ext rfl (fun b => ?_) rfl
  simp only [OperationTable.forget, OperationTable.mapLists, marked]
  split
  · simp only [Option.map_map]
    congr 1
    funext c
    simp [place.write_forget]
  · rfl

section Flags

variable {ev : GenericEvaluator ι} {shape : OperationTable Nat} {a : Nat} {place : FlagPlace}

theorem marked_right {g : TypeGraph} {t : OperationTable Nat} {flag : Bool} {tc depth : Nat}
    (h : t.AllLists (fun l _ => l.Right g))
    (htc : ∀ l n, t.forget.lists a = some (l, n) → ∀ arg, place.read l = some arg →
      arg.tc = some tc)
    (hflag : g.hasObjref depth tc = .ok flag) :
    (marked a place flag t).AllLists (fun l _ => l.Right g) := by
  intro b l n hlist
  simp only [marked] at hlist
  split at hlist
  · next hb =>
      subst hb
      obtain ⟨⟨l₀, n₀⟩, hold, heq⟩ := Option.map_eq_some_iff.mp hlist
      cases heq
      refine (h b l₀ n₀ hold).write (fun arg hread => ?_) hflag
      have hforgotten : t.forget.lists b = some (l₀.forget, n₀) := by
        simp only [OperationTable.forget, OperationTable.mapLists, hold, Option.map_some]
      refine htc l₀.forget n₀ hforgotten arg.forget ?_
      rw [place.read_forget, hread, Option.map_some]
  · exact h b l n hlist

/-- The flag that is there, and the one that `has_objref` would give. Where the
memo answers nothing is written on its side only. -/
theorem mustProxy_matching (place : FlagPlace) {l : ArgList Nat} {n : Int} {arg : Arg Nat}
    (hlist : shape.lists a = some (l.forget, n)) (hread : place.read l = some arg)
    (hright : arg.Right ev.types) :
    Matching ev.types shape (ev.mustProxy a place arg) (ev.mustProxy a place arg.forget) := by
  cases htc : arg.tc with
  | none =>
      have hplain : ev.mustProxy a place arg.forget = Action.fail .nullDereference := by
        simp [mustProxy, htc]
      rw [hplain]
      exact .fail _
  | some tc =>
      cases hflag : ev.types.hasObjref ev.stack tc with
      | error cause =>
          have hplain : ev.mustProxy a place arg.forget = Action.fail cause := by
            simp [mustProxy, htc, hflag]
          rw [hplain]
          exact .fail _
      | ok flag =>
          have hplain : ev.mustProxy a place arg.forget =
              mark a place flag >>= fun _ => pure flag := by
            simp only [mustProxy, Arg.forget_mustProxy, Arg.forget_tc, htc, hflag]
            rfl
          rw [hplain]
          have hplace : ∀ l' n', shape.lists a = some (l', n') → ∀ arg', place.read l' = some arg' →
              arg'.tc = some tc := by
            intro l' n' hlist' arg' hread'
            rw [hlist] at hlist'
            cases hlist'
            rw [place.read_forget, hread] at hread'
            cases hread'
            exact htc
          rcases hright with hunknown | ⟨tc', htc', hknown⟩
          · have hmust : ev.mustProxy a place arg =
                mark a place flag >>= fun _ => pure flag := by
              simp only [mustProxy, hunknown, htc, hflag]
              rfl
            rw [hmust]
            refine .bind (.modify fun s t hst => ?_) fun _ => .pure flag
            have hwritten := marked_right hst.right
              (by rw [hst.shape]; exact hplace) hflag
            have hsame := marked_forget a place flag s.table
            exact ⟨⟨hwritten, (hsame.trans hst.forget).trans (marked_forget a place flag _).symm,
              hst.reg, hst.values⟩, hsame.trans hst.shape⟩
          · have hmust : ev.mustProxy a place arg = pure flag := by
              have hcorrect := TypeGraph.hasObjref_correct hflag
              rw [htc] at htc'
              obtain rfl := Option.some.inj htc'
              rcases hknown with ⟨hone, hreaches⟩ | ⟨hzero, hnot⟩
              · obtain rfl := hcorrect.mpr hreaches
                simp [mustProxy, hone]
              · obtain rfl : flag = false := by
                  cases flag with
                  | false => rfl
                  | true => exact absurd (hcorrect.mp rfl) hnot
                simp [mustProxy, hzero]
            rw [hmust]
            intro s t hst
            exact ⟨flag, s, rfl, rfl,
              ⟨hst.right, hst.forget.trans (marked_forget a place flag t.table).symm,
                hst.reg, hst.values⟩, hst.shape⟩

theorem proxifyIfMust_matching {f : Bool} {arg : Arg Nat} (nv : NamedValue Reference)
    (hmust : Matching ev.types shape (ev.mustProxy a place arg)
      (ev.mustProxy a place arg.forget)) :
    Matching ev.types shape (ev.proxifyIfMust f a place arg nv)
      (ev.proxifyIfMust f a place arg.forget nv) := by
  refine hmust.bind fun must => ?_
  cases must with
  | false => exact .pure nv
  | true => exact (Matching.onRegistry _).bind fun v => .pure _

end Flags

/-! ## The evaluations -/

section Evaluations

variable {ev : GenericEvaluator ι} {shape : OperationTable Nat} {a : Nat} {l : ArgList Nat}
variable {n : Int} {f : Bool}

/-- The induction is on the arguments that are left, of which the first is at
position `i` of the list. -/
theorem paramsLoop_matching (f : Bool) (exclude : Flags) {i : Nat} {arguments : List (Arg Nat)}
    (hmust : ∀ j arg, arguments[j]? = some arg →
      Matching ev.types shape (ev.mustProxy a (.argument (i + j)) arg)
        (ev.mustProxy a (.argument (i + j)) arg.forget))
    (before rest : List (NamedValue Reference)) :
    Matching ev.types shape (ev.paramsLoop f a exclude i arguments before rest)
      (ev.paramsLoop f a exclude i (arguments.map Arg.forget) before rest) := by
  induction arguments generalizing i before rest with
  | nil => exact .pure ()
  | cons arg arguments ih =>
      have hrest : ∀ before rest,
          Matching ev.types shape (ev.paramsLoop f a exclude (i + 1) arguments before rest)
            (ev.paramsLoop f a exclude (i + 1) (arguments.map Arg.forget) before rest) := by
        refine ih fun j arg' hj => ?_
        rw [Nat.add_right_comm]
        exact hmust (j + 1) arg' hj
      rw [List.map_cons]
      unfold paramsLoop
      rw [Arg.forget_mode]
      split
      · exact hrest _ _
      · cases nextItem exclude rest with
        | none => exact .raise _
        | some item =>
            obtain ⟨skipped, nv, rest⟩ := item
            refine (proxifyIfMust_matching nv (hmust 0 arg rfl)).bind fun nv => ?_
            refine Matching.bind ?_ fun _ => hrest _ _
            exact .onValues (fun v => { v with args := before ++ skipped ++ nv :: rest })
              (fun _ => rfl) (fun _ => rfl) fun _ => rfl

theorem proxifyParams_matching (hlist : shape.lists a = some (l.forget, n))
    (hright : l.Right ev.types) (direction : Flags) :
    Matching ev.types shape (ev.proxifyParams f a l direction)
      (ev.proxifyParams f a l.forget direction) := by
  have hflag : l.forget.mustProxy direction = l.mustProxy direction := rfl
  unfold proxifyParams
  rw [hflag]
  split
  · exact .pure ()
  · refine .get fun s t hst => ?_
    have hargs : s.args = t.args := congrArg Values.args hst.values
    have hmust : ∀ j arg, l.args[j]? = some arg →
        Matching ev.types shape (ev.mustProxy a (.argument (0 + j)) arg)
          (ev.mustProxy a (.argument (0 + j)) arg.forget) := by
      intro j arg hj
      rw [Nat.zero_add]
      exact mustProxy_matching (.argument j) hlist hj (hright (.argument j) arg hj)
    rw [hargs]
    exact paramsLoop_matching f (if direction = .argIn then .argOut else .argIn) hmust [] t.args

theorem replaceResult_matching :
    Matching ev.types shape (ev.replaceResult f) (ev.replaceResult f) := by
  refine .get fun s t hst => ?_
  have hresult : s.result = t.result := congrArg Values.result hst.values
  rw [hresult]
  cases t.result with
  | none => exact .fail _
  | some nv =>
      refine (Matching.onRegistry _).bind fun v' => ?_
      exact .onValues (fun v => { v with result := some { nv with value := v' } })
        (fun _ => rfl) (fun _ => rfl) fun _ => rfl

theorem proxifyResult_matching (hlist : shape.lists a = some (l.forget, n))
    (hright : l.Right ev.types) :
    Matching ev.types shape (ev.proxifyResult f a l) (ev.proxifyResult f a l.forget) := by
  refine Matching.bind (mustProxy_matching .result hlist rfl
    (hright .result l.result rfl)) fun must => ?_
  cases must with
  | false => exact .pure ()
  | true => exact replaceResult_matching

theorem prepareRequest_forget (arguments : List (Arg Nat)) :
    prepareRequest (arguments.map Arg.forget) = prepareRequest arguments := by
  induction arguments with
  | nil => rfl
  | cons arg arguments ih =>
      rw [List.map_cons]
      unfold prepareRequest
      rw [ih]
      rfl

theorem setArguments_matching (args : Except Exn (List (NamedValue Reference))) :
    Matching ev.types shape (setArguments args) (setArguments args) := by
  cases args with
  | error e => exact .raise e
  | ok args =>
      exact .onValues (fun v => { v with args := args }) (fun _ => rfl) (fun _ => rfl)
        fun _ => rfl

theorem prepareReply_matching (l : ArgList Nat) :
    Matching ev.types shape (ev.prepareReply l) (ev.prepareReply l.forget) := by
  have hsame : ev.prepareReply l.forget = ev.prepareReply l := rfl
  rw [hsame]
  unfold prepareReply
  split
  · exact .pure ()
  · refine Matching.bind ?_ fun _ => ?_
    · exact .onValues (fun v => { v with
        outArgs := v.outArgs ++
          v.args.filter (fun nv => nv.flags = .argInout ∨ nv.flags = .argOut) })
        (fun _ => rfl) (fun _ => rfl) fun _ => rfl
    · unfold prepareResult
      cases l.result.tc with
      | none => exact .fail _
      | some tc =>
          dsimp only
          split
          · exact .pure ()
          · exact .onValues (fun v => { v with result := some ⟨.unset, tc, .plain []⟩ })
              (fun _ => rfl) (fun _ => rfl) fun _ => rfl

theorem findException_forget (exType : String) (i : Nat) (exceptions : List (Arg Nat)) :
    ev.findException exType i (exceptions.map Arg.forget) =
      (ev.findException exType i exceptions).map fun e => (e.1, e.2.1.forget, e.2.2) := by
  induction exceptions generalizing i with
  | nil => rfl
  | cons arg exceptions ih =>
      rw [List.map_cons]
      unfold findException
      rw [ih, Arg.forget_tc, Option.map_or]
      congr 1
      cases arg.tc with
      | none => rfl
      | some tc =>
          simp only [Option.bind_some]
          split
          · split <;> rfl
          · rfl

/-- The exception that is found stands where it is said to stand. -/
theorem findException_place {exType : String} {i j tc : Nat} {exceptions : List (Arg Nat)}
    {arg : Arg Nat} (h : ev.findException exType i exceptions = some (j, arg, tc)) :
    ∃ k, j = i + k ∧ exceptions[k]? = some arg := by
  induction exceptions generalizing i with
  | nil => cases h
  | cons first exceptions ih =>
      unfold findException at h
      rcases Option.or_eq_some_iff.mp h with hlater | ⟨-, hhere⟩
      · obtain ⟨k, rfl, hk⟩ := ih hlater
        exact ⟨k + 1, by omega, hk⟩
      · obtain ⟨tc', -, hnode⟩ := Option.bind_eq_some_iff.mp hhere
        split at hnode
        · split at hnode
          · cases hnode
            exact ⟨0, rfl, rfl⟩
          · cases hnode
        · cases hnode

theorem proxifyException_matching {i : Nat} {arg : Arg Nat}
    (decoded : Except Exn (NamedValue Reference))
    (hmust : Matching ev.types shape (ev.mustProxy a (.exception i) arg)
      (ev.mustProxy a (.exception i) arg.forget)) :
    Matching ev.types shape (ev.proxifyException f a i arg decoded)
      (ev.proxifyException f a i arg.forget decoded) := by
  cases decoded with
  | error e => exact .raise e
  | ok nv =>
      refine (proxifyIfMust_matching nv hmust).bind fun nv => ?_
      refine Matching.bind ?_ fun _ => .pure true
      exact .onValues (fun v => { v with encap := some nv })
        (fun _ => rfl) (fun _ => rfl) fun _ => rfl

end Evaluations

/-! ## From the lookup on -/

section Lookups

variable {ev : GenericEvaluator ι}

theorem lookup_forget (operation : String) (t : OperationTable Nat) :
    ev.lookup operation t.forget =
      (ev.lookup operation t).map fun p => (p.1, p.2.forget) := by
  have hfind : t.forget.find ev.cmp operation ev.typeId =
      ((t.find ev.cmp operation ev.typeId).1,
        (t.find ev.cmp operation ev.typeId).2.forget) :=
    OperationTable.mapLists_find operation ev.typeId
  unfold lookup
  rw [hfind]
  rcases find_cases ev.cmp operation ev.typeId t with hnone | ⟨a, hsome⟩
  · rw [hnone]
    exact OperationTable.addInterface_forget ev.intDef (some operation) t
  · rw [hsome]
    rfl

theorem deref_forget (found : Except Fault (Option Nat × OperationTable Nat)) :
    deref (found.map fun p => (p.1, p.2.forget)) =
      (deref found).map fun p => (p.1, p.2.1.forget, p.2.2.forget) := by
  cases found with
  | error cause => rfl
  | ok p =>
      obtain ⟨result, t⟩ := p
      cases result with
      | none => rfl
      | some a =>
          have hforget : t.forget.lists a =
              (t.lists a).map fun c => (c.1.forget, c.2) := rfl
          simp only [Except.map, deref, hforget]
          cases t.lists a with
          | none => rfl
          | some c => rfl

/-- What comes out of a lookup: flags that are right, and the list itself. -/
def Delivers (g : TypeGraph) (found : Except Fault (Nat × ArgList Nat × OperationTable Nat)) :
    Prop :=
  ∀ a l t, found = .ok (a, l, t) → t.AllLists (fun l _ => l.Right g) ∧ ∃ n, t.lists a = some (l, n)

theorem deref_delivers {g : TypeGraph} {found : Except Fault (Option Nat × OperationTable Nat)}
    (h : ∀ p, found = .ok p → p.2.AllLists (fun l _ => l.Right g)) : Delivers g (deref found) := by
  rintro a l t hderef
  unfold deref at hderef
  split at hderef
  · cases hderef
  · cases hderef
  · next a' t' =>
      split at hderef
      · cases hderef
      · next l' n' hlist =>
          cases hderef
          exact ⟨h _ rfl, n', hlist⟩

theorem find_delivers {g : TypeGraph} {t : OperationTable Nat}
    (h : t.AllLists (fun l _ => l.Right g)) (operation : String) :
    Delivers g (deref (.ok (t.find ev.cmp operation ev.typeId))) := by
  refine deref_delivers fun p hp => ?_
  obtain rfl := Except.ok.inj hp
  exact .find (.uncounted _) h operation ev.typeId

theorem lookup_delivers {g : TypeGraph} {t : OperationTable Nat}
    (h : t.AllLists (fun l _ => l.Right g)) (operation : String) :
    Delivers g (deref (ev.lookup operation t)) := by
  refine deref_delivers fun p hp => ?_
  unfold lookup at hp
  rcases find_cases ev.cmp operation ev.typeId t with hnone | ⟨a, hsome⟩
  · rw [hnone] at hp
    exact .addInterface (.uncounted _) h (fun _ => ArgList.Right.of_forget) hp
  · rw [hsome] at hp
    obtain rfl := Except.ok.inj hp
    exact .addRef (.uncounted _) h a

/-- The second frame is the first one with the flags wiped off. -/
structure Wiped (g : TypeGraph) (s t : Frame) : Prop where
  right : s.table.AllLists (fun l _ => l.Right g)
  table : t.table = s.table.forget
  reg : s.reg = t.reg
  values : s.values = t.values

/-- An evaluation that goes on with the list it has looked up. -/
theorem evaluation_tracks {g : TypeGraph}
    (found : OperationTable Nat → Except Fault (Nat × ArgList Nat × OperationTable Nat))
    (rest : Nat × ArgList Nat → EvalM Bool)
    (hforget : ∀ t, found t.forget =
      (found t).map fun p => (p.1, p.2.1.forget, p.2.2.forget))
    (hfound : ∀ t : OperationTable Nat, t.AllLists (fun l _ => l.Right g) → Delivers g (found t))
    (hrest : ∀ shape a l n, shape.lists a = some (l.forget, n) → l.Right g →
      Matching g shape (rest (a, l)) (rest (a, l.forget))) :
    Action.Tracks (Wiped g) (Action.get >>= fun s => argList (found s.table) >>= rest)
      (Action.get >>= fun s => argList (found s.table) >>= rest)
      (fun a b s t => a = b ∧ Alike g s t) (Alike g) := by
  refine Action.Tracks.get fun s t hst => ?_
  rw [hst.table, hforget]
  have hdelivers := hfound s.table hst.right
  cases hf : found s.table with
  | error cause => exact fun _ _ _ => trivial
  | ok p =>
      obtain ⟨a, l, t'⟩ := p
      obtain ⟨hright, n, hlist⟩ := hdelivers a l t' hf
      have hshape : t'.forget.lists a = some (l.forget, n) := by
        simp only [OperationTable.forget, OperationTable.mapLists, hlist, Option.map_some]
      have hgoes : Action.Tracks (AlikeAt g t'.forget) (rest (a, l)) (rest (a, l.forget))
          (fun b b' s t => b = b' ∧ Alike g s t) (Alike g) :=
        (hrest t'.forget a l n hshape (hright a l n hlist)).weaken
          (fun _ _ hst => hst) fun _ _ _ _ hq => ⟨hq.1, hq.2.toAlike⟩
      rintro s' t'' ⟨rfl, rfl⟩
      exact hgoes { s' with table := t' } { t'' with table := t'.forget }
        ⟨⟨hright, t'.forget_forget.symm, hst.reg, hst.values⟩, rfl⟩

theorem evaluateRequest_tracks (operation : String) (reqPoa : Poa)
    (decoded : Except Exn (List (Value ObjRef))) :
    Action.Tracks (Wiped ev.types) (ev.evaluateRequest operation reqPoa decoded)
      (ev.evaluateRequest operation reqPoa decoded) (fun a b s t => a = b ∧ Alike ev.types s t)
      (Alike ev.types) := by
  rw [evaluateRequest_eq]
  refine evaluation_tracks (fun t => deref (ev.lookup operation t)) _
    (fun t => ?_) (fun t ht => lookup_delivers ht operation) fun shape a l n hlist hright => ?_
  · rw [lookup_forget, deref_forget]
  · have hitems : prepareRequest l.forget.args = prepareRequest l.args :=
      prepareRequest_forget l.args
    unfold forwardRequest
    dsimp only
    rw [hitems]
    cases prepareRequest l.args with
    | error cause => exact fun _ _ _ => trivial
    | ok items =>
        refine Matching.bind (.pure items) fun items => ?_
        exact (setArguments_matching _).bind fun _ =>
          (proxifyParams_matching hlist hright .argIn).bind fun _ =>
            (prepareReply_matching l).bind fun _ => .pure true

theorem found_forget (operation : String) (t : OperationTable Nat) :
    deref (.ok (t.forget.find ev.cmp operation ev.typeId)) =
      (deref (.ok (t.find ev.cmp operation ev.typeId))).map fun p =>
        (p.1, p.2.1.forget, p.2.2.forget) := by
  rw [← deref_forget]
  exact congrArg (fun p => deref (.ok p)) (OperationTable.mapLists_find operation ev.typeId)

theorem evaluateReply_tracks (operation : String) (reqPoa : Poa) :
    Action.Tracks (Wiped ev.types) (ev.evaluateReply operation reqPoa)
      (ev.evaluateReply operation reqPoa) (fun a b s t => a = b ∧ Alike ev.types s t)
      (Alike ev.types) := by
  refine evaluation_tracks (fun t => deref (.ok (t.find ev.cmp operation ev.typeId))) _
    (found_forget operation) (fun t ht => find_delivers ht operation)
    fun shape a l n hlist hright => ?_
  exact (proxifyResult_matching hlist hright).bind fun _ =>
    (proxifyParams_matching hlist hright .argOut).bind fun _ => .pure true

theorem evaluateException_tracks (operation : String) (reqPoa : Poa) (exType : String)
    (decoded : Nat → Except Exn (Value ObjRef)) :
    Action.Tracks (Wiped ev.types) (ev.evaluateException operation reqPoa exType decoded)
      (ev.evaluateException operation reqPoa exType decoded)
      (fun a b s t => a = b ∧ Alike ev.types s t) (Alike ev.types) := by
  refine evaluation_tracks (fun t => deref (.ok (t.find ev.cmp operation ev.typeId))) _
    (found_forget operation) (fun t ht => find_delivers ht operation)
    fun shape a l n hlist hright => ?_
  have hfind : ev.findException exType 0 l.forget.exceptions =
      (ev.findException exType 0 l.exceptions).map fun e => (e.1, e.2.1.forget, e.2.2) :=
    findException_forget exType 0 l.exceptions
  dsimp only
  rw [hfind]
  cases hexception : ev.findException exType 0 l.exceptions with
  | none => exact .pure false
  | some found =>
      obtain ⟨i, arg, tc⟩ := found
      obtain ⟨k, rfl, hk⟩ := findException_place hexception
      refine proxifyException_matching _ (mustProxy_matching (.exception (0 + k)) hlist ?_ ?_)
      · rw [Nat.zero_add]
        exact hk
      · exact hright (.exception k) arg hk

end Lookups

end GenericEvaluator

/-! ## Runs with and without the memo -/

namespace TableUse

open OperationTable

variable {ι : Type}

/-- What an evaluation hands on: how it ends, and the values and the registry it
leaves. -/
structure Heard where
  outcome : Outcome Exn Bool
  values : Values
  reg : Registry

/-- The evaluation an event stands for, with the frame it is handed. -/
def evaluation (cmp : Strcmp) (prims : OperationTable.Primitives Nat) :
    TableEvent ι → Option (Frame × EvalM Bool)
  | .request ev frame operation reqPoa decoded =>
      some (frame, (shared cmp prims ev).evaluateRequest operation reqPoa decoded)
  | .requestRaises ev frame operation reqPoa decoded e done stage =>
      some (frame, requestRaising cmp prims ev operation reqPoa decoded e done stage)
  | .reply ev frame operation reqPoa =>
      some (frame, (shared cmp prims ev).evaluateReply operation reqPoa)
  | .exception ev frame operation reqPoa exType decoded =>
      some (frame, (shared cmp prims ev).evaluateException operation reqPoa exType decoded)
  | _ => none

def hear (x : EvalM Bool) (frame : Frame) : Heard :=
  let run := x.run frame
  ⟨run.1, run.2.values, run.2.reg⟩

def heard (cmp : Strcmp) (prims : OperationTable.Primitives Nat) (s : TableUse)
    (event : TableEvent ι) : Option Heard :=
  (evaluation cmp prims event).map fun p => hear p.2 { p.1 with table := s.table }

/-- The calls of a run one after another, each with what it hands on, and the state
they end in; `between` happens to the table before each of them. -/
def transcript (cmp : Strcmp) (prims : OperationTable.Primitives Nat)
    (between : OperationTable Nat → OperationTable Nat) :
    TableUse → List (TableEvent ι) → Option (List (Option Heard) × TableUse)
  | s, [] => some ([], s)
  | s, event :: events =>
      let s := { s with table := between s.table }
      (step cmp prims s event).bind fun s' =>
        (transcript cmp prims between s' events).map fun p =>
          (heard cmp prims s event :: p.1, p.2)

/-- The evaluators know the same type codes; a list that is left half filled in is
one that `new ArgList` has made. -/
def Fits (g : TypeGraph) : TableEvent ι → Prop
  | .request ev _ _ _ _ => ev.types = g
  | .reply ev _ _ _ => ev.types = g
  | .exception ev _ _ _ _ _ => ev.types = g
  | .addInterfaceRaises _ _ _ _ stage => ∀ l, stage = .made l → l.forget = l
  | .requestRaises _ _ _ _ _ _ _ stage => ∀ l, stage = .made l → l.forget = l
  | _ => True

/-- The same references are held, and apart from flags it is the same table. -/
structure Remembers (g : TypeGraph) (s t : TableUse) : Prop where
  right : s.table.AllLists (fun l _ => l.Right g)
  forget : s.table.forget = t.table.forget
  held : s.held = t.held

section Memo

variable {cmp : Strcmp} {prims : OperationTable.Primitives Nat} {g : TypeGraph}
variable {s t t' : TableUse}

/-- An evaluation of a run with the memo, where the one without it comes to an end. -/
theorem after_remembers {frame : Frame} {x : EvalM Bool}
    (hx : Action.Tracks (GenericEvaluator.Wiped g) x x
      (fun a b s t => a = b ∧ GenericEvaluator.Alike g s t) (GenericEvaluator.Alike g))
    (h : Remembers g s t) (hafter : after { t with table := t.table.forget } frame x = some t') :
    ∃ s', s.after frame x = some s' ∧ Remembers g s' t' ∧
      hear x { frame with table := s.table } =
        hear x { frame with table := t.table.forget } := by
  have hrun := hx { frame with table := s.table } { frame with table := t.table.forget }
    ⟨h.right, h.forget.symm, rfl, rfl⟩
  unfold after at hafter ⊢
  unfold hear
  dsimp only at hafter
  cases hplain : x.run { frame with table := t.table.forget } with
  | mk outcome frame' =>
      rw [hplain] at hrun hafter
      cases outcome with
      | fault cause => cases hafter
      | ok b =>
          obtain ⟨a, memo, hmemo, rfl, halike⟩ := hrun
          cases hafter
          rw [hmemo]
          dsimp only
          rw [halike.values, halike.reg]
          exact ⟨_, rfl, ⟨halike.right, halike.forget, h.held⟩, rfl⟩
      | raised e =>
          obtain ⟨memo, hmemo, halike⟩ := hrun
          cases hafter
          rw [hmemo]
          dsimp only
          rw [halike.values, halike.reg]
          exact ⟨_, rfl, ⟨halike.right, halike.forget, h.held⟩, rfl⟩

theorem cutShort_remembers {repo : Repository ι Nat} {intDef : ι} {desired : Option String}
    {done : Nat} {stage : OperationTable.Stage Nat} (hstage : ∀ l, stage = .made l → l.forget = l)
    (h : Remembers g s t)
    (hstep : cutShort cmp prims { t with table := t.table.forget } repo intDef desired done stage =
      some t') :
    ∃ s', s.cutShort cmp prims repo intDef desired done stage = some s' ∧
      Remembers g s' t' := by
  unfold cutShort at hstep ⊢
  dsimp only at hstep
  rw [← h.forget, addInterfaceRaises_forget intDef desired done hstage] at hstep
  cases hadd : addInterfaceRaises cmp prims repo intDef desired done stage s.table with
  | error cause =>
      rw [hadd] at hstep
      cases hstep
  | ok table =>
      rw [hadd] at hstep
      cases hstep
      refine ⟨_, rfl, ?_, table.forget_forget.symm, h.held⟩
      exact .addInterfaceRaises (.uncounted _) h.right (fun _ => ArgList.Right.of_forget)
        (fun l hl => ArgList.Right.of_forget (hstage l hl)) hadd

theorem hear_requestRaising {ev : GenericEvaluator ι} {frame : Frame} {operation : String}
    {reqPoa : Poa} {decoded : Except Exn (List (Value ObjRef))} {e : Exn} {done : Nat}
    {stage : OperationTable.Stage Nat} (hnone : (s.table.find cmp operation ev.typeId).1 = none)
    (hcut : s.cutShort cmp prims ev.repo ev.intDef (some operation) done stage = some t') :
    hear (requestRaising cmp prims ev operation reqPoa decoded e done stage)
      { frame with table := s.table } = ⟨.raised e, frame.values, frame.reg⟩ := by
  obtain ⟨table, hraises, -⟩ := Option.map_eq_some_iff.mp hcut
  unfold hear
  rw [run_requestRaising hnone, ok_of_toOption hraises]
  rfl

/-- One call: what the run without the memo does, the run with it does. -/
theorem step_remembers {event : TableEvent ι} (hfits : Fits g event) (h : Remembers g s t)
    (hstep : step cmp prims { t with table := t.table.forget } event = some t') :
    ∃ s', step cmp prims s event = some s' ∧ Remembers g s' t' ∧
      heard cmp prims s event = heard cmp prims { t with table := t.table.forget } event := by
  cases event with
  | find opname repId =>
      unfold step at hstep ⊢
      dsimp only at hstep
      have hfind : s.table.forget.find cmp opname repId = _ := mapLists_find opname repId
      rw [← h.forget, hfind] at hstep
      cases hstep
      refine ⟨_, rfl, ⟨?_, (forget_forget _).symm, ?_⟩, rfl⟩
      · exact .find (.uncounted _) h.right opname repId
      · exact congrArg (hold _) h.held
  | addInterface repo intDef desired =>
      unfold step at hstep ⊢
      dsimp only at hstep
      rw [← h.forget, addInterface_forget] at hstep
      cases hadd : OperationTable.addInterface cmp prims repo intDef desired s.table with
      | error cause =>
          rw [hadd] at hstep
          cases hstep
      | ok p =>
          rw [hadd] at hstep
          cases hstep
          dsimp only
          rw [hadd]
          refine ⟨⟨p.2, hold p.1 s.held⟩, rfl, ⟨?_, p.2.forget_forget.symm, ?_⟩, rfl⟩
          · exact .addInterface (.uncounted _) h.right (fun _ => ArgList.Right.of_forget) hadd
          · exact congrArg (hold _) h.held
  | addInterfaceRaises repo intDef desired done stage =>
      obtain ⟨s', hs', hremembers⟩ := cutShort_remembers hfits h hstep
      exact ⟨s', hs', hremembers, rfl⟩
  | giveBack a =>
      unfold step at hstep ⊢
      dsimp only at hstep ⊢
      rw [h.held]
      split at hstep
      · next hheld =>
          cases hstep
          rw [if_pos hheld]
          refine ⟨_, rfl, ⟨.removeRef (.uncounted _) h.right a, ?_, rfl⟩, rfl⟩
          have hremove : ∀ t : OperationTable Nat,
              (t.removeRef a).forget = t.forget.removeRef a := fun t => mapLists_removeRef a
          rw [hremove, hremove, forget_forget, h.forget]
      · cases hstep
  | request ev frame operation reqPoa decoded =>
      obtain rfl := hfits
      obtain ⟨s', hs', hremembers, hheard⟩ := after_remembers
        ((shared cmp prims ev).evaluateRequest_tracks operation reqPoa decoded) h hstep
      exact ⟨s', hs', hremembers, congrArg some hheard⟩
  | requestRaises ev frame operation reqPoa decoded e done stage =>
      unfold step at hstep ⊢
      have hfind : s.table.forget.find cmp operation ev.typeId = _ :=
        mapLists_find operation ev.typeId
      dsimp only at hstep
      dsimp only
      split at hstep
      · next hplain =>
          have hnone : (s.table.find cmp operation ev.typeId).1 = none := by
            rwa [← h.forget, hfind] at hplain
          rw [if_pos hnone, after_requestRaising hnone]
          rw [after_requestRaising hplain] at hstep
          obtain ⟨s', hs', hremembers⟩ := cutShort_remembers hfits h hstep
          refine ⟨s', hs', hremembers, congrArg some ?_⟩
          exact (hear_requestRaising hnone hs').trans (hear_requestRaising hplain hstep).symm
      · cases hstep
  | reply ev frame operation reqPoa =>
      obtain rfl := hfits
      obtain ⟨s', hs', hremembers, hheard⟩ := after_remembers
        ((shared cmp prims ev).evaluateReply_tracks operation reqPoa) h hstep
      exact ⟨s', hs', hremembers, congrArg some hheard⟩
  | exception ev frame operation reqPoa exType decoded =>
      obtain rfl := hfits
      obtain ⟨s', hs', hremembers, hheard⟩ := after_remembers
        ((shared cmp prims ev).evaluateException_tracks operation reqPoa exType decoded) h hstep
      exact ⟨s', hs', hremembers, congrArg some hheard⟩

/-- A whole run. The induction is on the calls. -/
theorem transcript_remembers {events : List (TableEvent ι)} {answers : List (Option Heard)}
    (hfits : ∀ event ∈ events, Fits g event) (h : Remembers g s t)
    (hplain : transcript cmp prims forget t events = some (answers, t')) :
    ∃ s', transcript cmp prims id s events = some (answers, s') ∧ Remembers g s' t' := by
  induction events generalizing s t answers with
  | nil =>
      cases hplain
      exact ⟨s, rfl, h⟩
  | cons event events ih =>
      unfold transcript at hplain ⊢
      dsimp only at hplain
      obtain ⟨t₁, hstep, hrest⟩ := Option.bind_eq_some_iff.mp hplain
      obtain ⟨p, hp, heq⟩ := Option.map_eq_some_iff.mp hrest
      cases heq
      obtain ⟨s₁, hmemo, hremembers, hheard⟩ :=
        step_remembers (hfits event (List.mem_cons_self ..)) h hstep
      obtain ⟨s', hs', hend⟩ := ih (fun e he => hfits e (List.mem_cons_of_mem _ he)) hremembers hp
      refine ⟨s', ?_, hend⟩
      change (step cmp prims s event).bind _ = _
      rw [hmemo, Option.bind_some, hs', ← hheard]
      rfl

end Memo

/-- The memo is transparent: where the evaluators that find every flag wiped off
come to an end without a fault, those that keep the flags do the same. -/
theorem memo_transparent {cmp : Strcmp} {prims : OperationTable.Primitives Nat} (g : TypeGraph)
    {events : List (TableEvent ι)} (hfits : ∀ event ∈ events, Fits g event)
    {answers : List (Option Heard)} {t : TableUse}
    (hplain : transcript cmp prims forget ⟨OperationTable.create cmp prims, fun _ => 0⟩ events =
      some (answers, t)) :
    ∃ s, transcript cmp prims id ⟨OperationTable.create cmp prims, fun _ => 0⟩ events =
        some (answers, s) ∧
      s.table.forget = t.table.forget ∧ s.held = t.held := by
  have hcreate : (OperationTable.create cmp prims).AllLists (fun l _ => l.Right g) :=
    .create (.uncounted _) cmp prims fun _ => ArgList.Right.of_forget
  obtain ⟨s, hmemo, hend⟩ :=
    transcript_remembers hfits ⟨hcreate, rfl, rfl⟩ hplain
  exact ⟨s, hmemo, hend.forget, hend.held⟩

/-- `void op (in Object x)` is called twice; the second call finds the flag. -/
def calledAgain : List (TableEvent Unit) :=
  let call := .request (GenericEvaluator.sampleEvaluator 1)
    ⟨OperationTable.empty, GenericEvaluator.sampleRegistry, [], [], none, none⟩ "op" ⟨0, true⟩
    (.ok [.object (some GenericEvaluator.sampleRef)])
  [call, call]

theorem memo_transparent_called_again :
    ∃ answers s, transcript .sign ⟨0, 3, 3⟩ id
        ⟨OperationTable.create .sign ⟨0, 3, 3⟩, fun _ => 0⟩ calledAgain = some (answers, s) ∧
      (s.table.lists 4).map (fun c => c.1.args.map Arg.mustProxy) = some [1] := by
  obtain ⟨⟨answers, t⟩, hplain⟩ := Option.isSome_iff_exists.mp (show
    (transcript .sign ⟨0, 3, 3⟩ forget ⟨OperationTable.create .sign ⟨0, 3, 3⟩, fun _ => 0⟩
      calledAgain).isSome by decide)
  have hfits : ∀ event ∈ calledAgain, Fits GenericEvaluator.sampleTypes event := by
    intro event hevent
    simp only [calledAgain, List.mem_cons, List.not_mem_nil, or_false, or_self] at hevent
    rw [hevent]
    rfl
  obtain ⟨s, hmemo, -⟩ := memo_transparent GenericEvaluator.sampleTypes hfits hplain
  have hflag : (transcript .sign ⟨0, 3, 3⟩ id
      ⟨OperationTable.create .sign ⟨0, 3, 3⟩, fun _ => 0⟩ calledAgain).map
        (fun p => (p.2.table.lists 4).map fun c => c.1.args.map Arg.mustProxy) =
      some (some [1]) := by decide
  rw [hmemo] at hflag
  exact ⟨answers, s, hmemo, Option.some.inj hflag⟩

end TableUse

end Lorica
