import Lorica.Firewall
import Lorica.ValueRewrite

/-!
The two cursors of `proxify_params`. One runs over the parameters of the
operation, the other over the items of a list that was made from them: all of
them for a request, those that come back for a reply. What the loop does is
compared with a walk that has each item together with its parameter, and that
asks `has_objref` instead of the flags left by earlier calls.
-/

namespace Lorica

open Machine

/-- A parameter with the value it has in a call. -/
structure Passed where
  param : Nat × ParameterMode
  value : Value Reference

namespace Passed

def item (p : Passed) : NamedValue Reference := ⟨p.param.2.flags, p.param.1, p.value⟩

end Passed

/-- The two lists of a call. -/
inductive Way where
  | request
  | reply
deriving DecidableEq

namespace Way

def direction : Way → Flags
  | request => .argIn
  | reply => .argOut

/-- The parameters with an item in the list. -/
def passed : Way → List Passed → List Passed
  | request, ps => ps
  | reply, ps => ps.filter fun p => p.param.2 ≠ .paramIn

/-- The mode that does not travel this way. -/
def skipped : Way → ParameterMode
  | request => .paramOut
  | reply => .paramIn

theorem passed_cons {way : Way} {p : Passed} (hp : p.param.2 ≠ way.skipped)
    (ps : List Passed) : way.passed (p :: ps) = p :: way.passed ps := by
  cases way with
  | request => rfl
  | reply =>
      have hin : p.param.2 ≠ .paramIn := hp
      simp [passed, hin]

/-- A parameter that does not travel has its item in the list or has none; its
item waits for the cursor. -/
theorem passed_skipped {way : Way} {pending : List Passed}
    (hpending : ∀ p ∈ pending, p.param.2 = way.skipped) {p : Passed}
    (hp : p.param.2 = way.skipped) (ps : List Passed) :
    ∃ pending' : List Passed, (∀ p ∈ pending', p.param.2 = way.skipped) ∧
      pending ++ way.passed (p :: ps) = pending' ++ way.passed ps := by
  cases way with
  | request =>
      refine ⟨pending ++ [p], ?_, by simp [passed]⟩
      intro q hq
      rcases List.mem_append.mp hq with hq | hq
      · exact hpending q hq
      · exact List.mem_singleton.mp hq ▸ hp
  | reply =>
      refine ⟨pending, hpending, ?_⟩
      have hin : p.param.2 = .paramIn := hp
      simp [passed, hin]

end Way

/-- The list `add_interface` makes for an operation with these parameters. -/
def ArgList.firstOf (params : List (Nat × ParameterMode)) (exceptions : List Nat)
    (oneway : Bool) (result : Option Nat) : ArgList Nat :=
  .create (params.map fun p => (p.1, p.2.flags)) exceptions oneway result

theorem ParameterMode.flags_inj {m m' : ParameterMode} : m.flags = m'.flags ↔ m = m' := by
  cases m <;> cases m' <;> decide

namespace GenericEvaluator

variable {ι : Type} (ev : GenericEvaluator ι)

section Aligned

/-- An item is rewritten if the type of its parameter has a reference in it. -/
def proxifyItem (outFacing : Bool) (p : Passed) : EvalM (NamedValue Reference) :=
  match ev.types.hasObjref ev.stack p.param.1 with
  | .error cause => Action.fail cause
  | .ok false => pure p.item
  | .ok true => do
      let v ← onRegistry (ev.proxifyAny outFacing p.param.1 p.value)
      pure { p.item with value := v }

/-- Each parameter that travels has its own item seen to; the list is what was
handled before, this item and the rest. -/
def proxifyEach (outFacing : Bool) (way : Way) :
    List (NamedValue Reference) → List Passed → EvalM Unit
  | _, [] => pure ()
  | before, p :: rest =>
      if p.param.2 = way.skipped then proxifyEach outFacing way (before ++ [p.item]) rest
      else do
        let nv ← ev.proxifyItem outFacing p
        Action.modify fun s => { s with args := before ++ nv :: rest.map Passed.item }
        proxifyEach outFacing way (before ++ [nv]) rest

/-- What an operation's first list has become after calls of `proxify_params`
that returned or raised. -/
inductive Used (a : Nat) (first : ArgList Nat) : ArgList Nat → Prop where
  | first : Used a first first
  | again {l l' : ArgList Nat} {s s' : Frame} {count count' : Int} {f : Bool} {way : Way}
      {outcome : Outcome Exn Unit} (h : Used a first l)
      (hs : s.table.lists a = some (l, count))
      (hrun : (ev.proxifyParams f a l way.direction).run s = (outcome, s'))
      (hend : ∀ cause, outcome ≠ .fault cause)
      (hs' : s'.table.lists a = some (l', count')) : Used a first l'

end Aligned

/-! ## Flags -/

section Flags

/-- The flag of a parameter is unknown or the answer of `has_objref`. -/
structure Fits (param : Nat × ParameterMode) (arg : Arg Nat) : Prop where
  tc : arg.tc = some param.1
  mode : arg.mode = param.2.flags
  flag : arg.mustProxy = -1 ∨
    ∃ b, ev.types.hasObjref ev.stack param.1 = .ok b ∧ arg.mustProxy = if b then 1 else 0

/-- The flags of the whole list are never written. -/
structure Cached (params : List (Nat × ParameterMode)) (l : ArgList Nat) : Prop where
  mustProxy : ∀ way : Way, l.mustProxy way.direction = -1
  args : List.Forall₂ ev.Fits params l.args

variable {ev}

theorem Fits.needs {param : Nat × ParameterMode} {arg : Arg Nat} (h : ev.Fits param arg) :
    ev.needs arg = ev.types.hasObjref ev.stack param.1 := by
  unfold GenericEvaluator.needs
  rcases h.flag with hunknown | ⟨b, hb, hflag⟩
  · simp [hunknown, h.tc]
  · cases b <;> simp [hflag, hb]

theorem cached_first (params : List (Nat × ParameterMode)) (exceptions : List Nat)
    (oneway : Bool) (result : Option Nat) :
    ev.Cached params (.firstOf params exceptions oneway result) where
  mustProxy way := by cases way <;> rfl
  args := by
    simp only [ArgList.firstOf, ArgList.create, List.map_map]
    rw [List.forall₂_map_right_iff, List.forall₂_same]
    exact fun p _ => ⟨rfl, rfl, Or.inl rfl⟩

/-- A flag that is written is the answer for its own parameter. -/
theorem Cached.write {params : List (Nat × ParameterMode)} {l : ArgList Nat}
    (h : ev.Cached params l) {i : Nat} {flag : Bool}
    (hflag : ∀ p ∈ params[i]?, ev.types.hasObjref ev.stack p.1 = .ok flag) :
    ev.Cached params ((FlagPlace.argument i).write flag l) where
  mustProxy way := h.mustProxy way
  args := by
    have hargs := h.args
    rw [List.forall₂_iff_get] at hargs ⊢
    obtain ⟨hlength, hget⟩ := hargs
    refine ⟨by simpa [FlagPlace.write] using hlength, fun j hj hj' => ?_⟩
    have hj'' : j < l.args.length := hlength ▸ hj
    have hfits := hget j hj hj''
    simp only [FlagPlace.write, List.get_eq_getElem, List.getElem_modify]
    split
    · next hij =>
        subst hij
        refine ⟨hfits.tc, hfits.mode, Or.inr ⟨flag, hflag _ ?_, rfl⟩⟩
        simp [List.getElem?_eq_getElem hj]
    · exact hfits

/-- The list at `a`, as long as it is there. -/
def CachedAt (ev : GenericEvaluator ι) (params : List (Nat × ParameterMode)) (a : Nat)
    (s : Frame) : Prop :=
  ∀ l count, s.table.lists a = some (l, count) → ev.Cached params l

theorem mustProxy_cached {params : List (Nat × ParameterMode)} {a i : Nat} {arg : Arg Nat}
    (harg : ∀ p ∈ params[i]?, ev.Fits p arg) :
    Action.Keeps (ev.CachedAt params a) (ev.mustProxy a (.argument i) arg) := by
  refine mustProxy_keeps fun tc flag htc hhas => Action.Keeps.modify fun s hs l count hl => ?_
  simp only [if_true] at hl
  obtain ⟨⟨l', count'⟩, hl', heq⟩ := Option.map_eq_some_iff.mp hl
  obtain ⟨rfl, rfl⟩ := Prod.mk.inj heq
  refine (hs l' count' hl').write fun p hp => ?_
  have hsame : tc = p.1 := Option.some.inj (htc.symm.trans (harg p hp).tc)
  rw [← hsame]
  exact hhas

theorem proxifyParams_cached {params : List (Nat × ParameterMode)} {l : ArgList Nat}
    (h : ev.Cached params l) (a : Nat) (f : Bool) (way : Way) :
    Action.Keeps (ev.CachedAt params a) (ev.proxifyParams f a l way.direction) := by
  unfold proxifyParams
  rw [if_neg (by simp [h.mustProxy way])]
  refine Action.Keeps.bind Action.Keeps.get fun s => ?_
  obtain ⟨-, hget⟩ := List.forall₂_iff_get.mp h.args
  refine paramsLoop_keeps (fun _ _ hs => hs) (fun _ _ hs => hs) (fun j arg hj => ?_) [] s.args
  refine mustProxy_cached fun p hp => ?_
  rw [Nat.zero_add] at hp
  obtain ⟨hparam, rfl⟩ := List.getElem?_eq_some_iff.mp hp
  obtain ⟨harg, rfl⟩ := List.getElem?_eq_some_iff.mp hj
  exact hget j hparam harg

theorem Used.cached {params : List (Nat × ParameterMode)} {a : Nat} {first l : ArgList Nat}
    (h : ev.Used a first l) (hfirst : ev.Cached params first) : ev.Cached params l := by
  induction h with
  | first => exact hfirst
  | @again l l' s s' count count' f way outcome _ hs hrun hend hs' ih =>
      have hcached : ev.CachedAt params a s := by
        intro l₀ count₀ hl₀
        obtain ⟨rfl, rfl⟩ := Prod.mk.inj (Option.some.inj (hs.symm.trans hl₀))
        exact ih
      exact (proxifyParams_cached ih a f way).run hcached hrun hend l' count' hs'

end Flags

/-! ## The lists -/

section Lists

variable {ev}

/-- `prepare_request` makes an item for each parameter. -/
theorem prepareRequest_items {params : List (Nat × ParameterMode)} {arguments : List (Arg Nat)}
    (h : List.Forall₂ ev.Fits params arguments) :
    prepareRequest arguments =
      .ok ((params.map fun param => Passed.mk param (.plain [])).map Passed.item) := by
  induction h with
  | nil => rfl
  | cons harg _ ih =>
      simp only [prepareRequest, harg.tc, harg.mode, ih]
      rfl

/-- Decoding changes values only. -/
theorem fill_items {skip : Flags} {ps : List Passed} {values : List (Value ObjRef)}
    {args : List (NamedValue Reference)} (h : fill skip (ps.map Passed.item) values = .ok args) :
    ∃ ps' : List Passed, ps'.map Passed.param = ps.map Passed.param ∧
      args = ps'.map Passed.item := by
  induction ps generalizing values args with
  | nil => exact ⟨[], rfl, (Except.ok.inj h).symm⟩
  | cons p ps ih =>
      have hrest : ∀ (v : Value Reference) (values : List (Value ObjRef)),
          (fill skip (ps.map Passed.item) values).map ({ p.item with value := v } :: ·) =
            .ok args → ∃ ps' : List Passed,
              ps'.map Passed.param = (p :: ps).map Passed.param ∧
                args = ps'.map Passed.item := by
        intro v values h
        cases hfill : fill skip (ps.map Passed.item) values with
        | error e => simp [hfill, Except.map] at h
        | ok args' =>
            rw [hfill] at h
            obtain ⟨ps', hparams, rfl⟩ := ih hfill
            exact ⟨⟨p.param, v⟩ :: ps', by simp [hparams], (Except.ok.inj h).symm⟩
      simp only [List.map_cons, fill] at h
      split at h
      · exact hrest p.value values h
      · cases values with
        | nil => exact absurd h (by simp)
        | cons v values => exact hrest _ values h

/-- `evaluate_request` copies what comes back to `out_args`. -/
theorem outArgs_items (ps : List Passed) :
    (ps.map Passed.item).filter (fun nv => nv.flags = .argInout ∨ nv.flags = .argOut) =
      (Way.reply.passed ps).map Passed.item := by
  rw [List.filter_map]
  congr 1
  apply List.filter_congr
  rintro ⟨⟨tc, mode⟩, v⟩ _
  cases mode <;> rfl

end Lists

/-! ## The two cursors -/

section Cursors

variable {ev} {f : Bool} {way : Way} {a : Nat}

/-- Two runs that end alike, but for the table. -/
def UpToTable {α : Type} (x y : Outcome Exn α × Frame) : Prop :=
  ∃ t, x = (y.1, { y.2 with table := t })

theorem UpToTable.trans {α : Type} {x y z : Outcome Exn α × Frame} (h : UpToTable x y)
    (h' : UpToTable y z) : UpToTable x z := by
  obtain ⟨t, rfl⟩ := h
  obtain ⟨t', rfl⟩ := h'
  exact ⟨t, rfl⟩

theorem UpToTable.bind {α β : Type} {x x' : EvalM α} {g g' : α → EvalM β} {s s' : Frame}
    (hx : UpToTable (x.run s) (x'.run s'))
    (hg : ∀ v u t, x'.run s' = (.ok v, u) →
      UpToTable ((g v).run { u with table := t }) ((g' v).run u)) :
    UpToTable ((x >>= g).run s) ((x' >>= g').run s') := by
  obtain ⟨t, ht⟩ := hx
  rw [Action.run_bind, Action.run_bind, ht]
  cases hrun : x'.run s' with
  | mk outcome u =>
      cases outcome with
      | ok v => exact hg v u t hrun
      | raised e => exact ⟨t, rfl⟩
      | fault cause => exact ⟨t, rfl⟩

theorem UpToTable.triple {α : Type} {x y : EvalM α} {P : Frame → Prop} {Q : α → Frame → Prop}
    (h : ∀ s, P s → UpToTable (x.run s) (y.run s)) (hy : Action.Triple P y Q fun _ => True)
    (hQ : ∀ v s t, Q v s → Q v { s with table := t }) : Action.Triple P x Q fun _ => True := by
  intro s hs
  obtain ⟨t, ht⟩ := h s hs
  have hrun := hy s hs
  rw [ht]
  cases hy : y.run s with
  | mk outcome s' =>
      rw [hy] at hrun
      cases outcome with
      | ok v => exact hQ v s' t hrun
      | raised e => trivial
      | fault cause => trivial

theorem proxifyItem_table (p : Passed) (s : Frame) (t : OperationTable Nat) :
    UpToTable ((ev.proxifyItem f p).run { s with table := t }) ((ev.proxifyItem f p).run s) := by
  unfold proxifyItem
  cases ev.types.hasObjref ev.stack p.param.1 with
  | error cause => exact ⟨t, rfl⟩
  | ok b =>
      cases b with
      | false => exact ⟨t, rfl⟩
      | true => exact UpToTable.bind ⟨t, rfl⟩ fun v u t' _ => ⟨t', rfl⟩

/-- The walk over the pairs does not look at the table. -/
theorem proxifyEach_table (before : List (NamedValue Reference)) (ps : List Passed)
    (s : Frame) (t : OperationTable Nat) :
    UpToTable ((ev.proxifyEach f way before ps).run { s with table := t })
      ((ev.proxifyEach f way before ps).run s) := by
  induction ps generalizing before s t with
  | nil => exact ⟨t, rfl⟩
  | cons p ps ih =>
      unfold proxifyEach
      split
      · exact ih _ s t
      · refine UpToTable.bind (proxifyItem_table p s t) fun nv u t' _ => ?_
        exact UpToTable.bind ⟨t', rfl⟩ fun _ u' t'' _ => ih _ u' t''

/-- Items that do not travel are passed over. -/
theorem proxifyEach_pending {pending : List Passed}
    (hpending : ∀ p ∈ pending, p.param.2 = way.skipped)
    (before : List (NamedValue Reference)) (ps : List Passed) :
    ev.proxifyEach f way before (pending ++ ps) =
      ev.proxifyEach f way (before ++ pending.map Passed.item) ps := by
  induction pending generalizing before with
  | nil => simp
  | cons p pending ih =>
      rw [List.forall_mem_cons] at hpending
      rw [List.cons_append, proxifyEach, if_pos hpending.1, ih hpending.2]
      simp

theorem nextItem_pending {pending : List Passed}
    (hpending : ∀ p ∈ pending, p.param.2 = way.skipped) {p : Passed}
    (hp : p.param.2 ≠ way.skipped) (ps : List Passed) :
    nextItem way.skipped.flags ((pending ++ p :: ps).map Passed.item) =
      some (pending.map Passed.item, p.item, ps.map Passed.item) := by
  induction pending with
  | nil =>
      have hflags : p.item.flags ≠ way.skipped.flags :=
        fun h => hp (ParameterMode.flags_inj.mp h)
      simp only [List.nil_append, List.map_cons, List.map_nil, nextItem, if_neg hflags]
  | cons q pending ih =>
      rw [List.forall_mem_cons] at hpending
      have hflags : q.item.flags = way.skipped.flags := congrArg ParameterMode.flags hpending.1
      simp only [List.cons_append, List.map_cons, nextItem, if_pos hflags, ih hpending.2,
        Option.map_some]

/-- The flag says what `has_objref` says. -/
theorem mustProxy_aligned {param : Nat × ParameterMode} {arg : Arg Nat}
    (h : ev.Fits param arg) (place : FlagPlace) (s : Frame) :
    UpToTable ((ev.mustProxy a place arg).run s)
      ((Action.ofExcept (ev.types.hasObjref ev.stack param.1)).run s) := by
  unfold GenericEvaluator.mustProxy
  rcases h.flag with hunknown | ⟨b, hb, hflag⟩
  · simp only [hunknown, h.tc]
    cases ev.types.hasObjref ev.stack param.1 with
    | error cause => exact ⟨s.table, rfl⟩
    | ok b => exact ⟨_, rfl⟩
  · rw [hb]
    cases b with
    | true => exact ⟨s.table, by simp [hflag]⟩
    | false => exact ⟨s.table, by simp [hflag]⟩

theorem proxifyIfMust_aligned {arg : Arg Nat} {p : Passed} (h : ev.Fits p.param arg)
    (place : FlagPlace) (s : Frame) :
    UpToTable ((ev.proxifyIfMust f a place arg p.item).run s)
      ((ev.proxifyItem f p).run s) := by
  obtain ⟨t, ht⟩ := mustProxy_aligned (a := a) h place s
  unfold proxifyIfMust proxifyItem
  rw [Action.run_bind, ht]
  cases ev.types.hasObjref ev.stack p.param.1 with
  | error cause => exact ⟨t, rfl⟩
  | ok b =>
      cases b with
      | false => exact ⟨t, rfl⟩
      | true => exact UpToTable.bind ⟨t, rfl⟩ fun v u t' _ => ⟨t', rfl⟩

/-- The loop does what the walk over the pairs does. The induction is on the
parameters that are left; pending are the items the cursor has not passed yet
although their parameters are done with. -/
theorem paramsLoop_aligned {i : Nat} {arguments : List (Arg Nat)} {ps pending : List Passed}
    (hargs : List.Forall₂ ev.Fits (ps.map Passed.param) arguments)
    (hpending : ∀ p ∈ pending, p.param.2 = way.skipped)
    (before : List (NamedValue Reference)) (s : Frame) :
    UpToTable
      ((ev.paramsLoop f a way.skipped.flags i arguments before
        ((pending ++ way.passed ps).map Passed.item)).run s)
      ((ev.proxifyEach f way before (pending ++ way.passed ps)).run s) := by
  induction ps generalizing i arguments pending before s with
  | nil =>
      simp only [List.map_nil, List.forall₂_nil_left_iff] at hargs
      subst hargs
      have hnone : way.passed [] = [] := by cases way <;> rfl
      rw [hnone, proxifyEach_pending hpending]
      exact ⟨s.table, rfl⟩
  | cons p ps ih =>
      obtain ⟨arg, arguments, harg, hrest, rfl⟩ := List.forall₂_cons_left_iff.mp hargs
      have hmode : arg.mode = way.skipped.flags ↔ p.param.2 = way.skipped := by
        rw [harg.mode, ParameterMode.flags_inj]
      unfold paramsLoop
      by_cases hp : p.param.2 = way.skipped
      · rw [if_pos (hmode.mpr hp)]
        obtain ⟨pending', hpending', hlist⟩ := way.passed_skipped hpending hp ps
        rw [hlist]
        exact ih hrest hpending' before s
      · rw [if_neg fun h => hp (hmode.mp h), way.passed_cons hp,
          nextItem_pending hpending hp, proxifyEach_pending hpending]
        unfold proxifyEach
        rw [if_neg hp]
        refine UpToTable.bind (proxifyIfMust_aligned harg _ s) fun nv u t _ => ?_
        refine UpToTable.bind ⟨t, rfl⟩ fun _ u' t' _ => ?_
        have hnone : ∀ p ∈ ([] : List Passed), p.param.2 = way.skipped := by simp
        have hloop := ih (i := i + 1) hrest hnone
          (before ++ pending.map Passed.item ++ [nv]) { u' with table := t' }
        exact hloop.trans (proxifyEach_table _ _ u' t')

end Cursors

variable {ev}

section Calls

variable {a : Nat} {l : ArgList Nat} {exceptions : List Nat} {oneway : Bool} {result : Option Nat}

theorem Used.aligned {ps : List Passed}
    (hl : ev.Used a (.firstOf (ps.map Passed.param) exceptions oneway result) l) (f : Bool)
    (way : Way) {s : Frame} (hs : s.args = (way.passed ps).map Passed.item) :
    UpToTable ((ev.proxifyParams f a l way.direction).run s)
      ((ev.proxifyEach f way [] (way.passed ps)).run s) := by
  have hcached := hl.cached (cached_first _ exceptions oneway result)
  have hexclude : (if way.direction = .argIn then Flags.argOut else .argIn) =
      way.skipped.flags := by cases way <;> rfl
  unfold proxifyParams
  rw [if_neg (by simp [hcached.mustProxy way]), hexclude, Action.run_bind_ok (Action.run_get s),
    hs]
  have hnone : ∀ p ∈ ([] : List Passed), p.param.2 = way.skipped := by simp
  exact paramsLoop_aligned hcached.args hnone [] s

/-- Behind `before` there is an item for each parameter. -/
def ItemsOf (params : List (Nat × ParameterMode)) (before : List (NamedValue Reference))
    (s : Frame) : Prop :=
  s.outArgs = [] ∧ ∃ ps : List Passed, ps.map Passed.param = params ∧
    s.args = before ++ ps.map Passed.item

theorem ItemsOf.cons {params : List (Nat × ParameterMode)} {before : List (NamedValue Reference)}
    {param : Nat × ParameterMode} {v : Value Reference} {s : Frame}
    (h : ItemsOf params (before ++ [Passed.item ⟨param, v⟩]) s) :
    ItemsOf (param :: params) before s := by
  obtain ⟨hout, ps, rfl, hargs⟩ := h
  exact ⟨hout, ⟨param, v⟩ :: ps, rfl, by simpa using hargs⟩

theorem proxifyItem_item (f : Bool) (p : Passed) :
    Action.Triple (fun s => s.outArgs = []) (ev.proxifyItem f p)
      (fun nv s => s.outArgs = [] ∧ ∃ v, nv = Passed.item ⟨p.param, v⟩) fun _ => True := by
  unfold proxifyItem
  cases ev.types.hasObjref ev.stack p.param.1 with
  | error cause => exact Action.Triple.fail
  | ok b =>
      cases b with
      | false => exact Action.Triple.pure fun s hs => ⟨hs, p.value, rfl⟩
      | true =>
          apply Action.Triple.bind
          · exact Action.Triple.weaken (onRegistry_keeps _ fun _ _ hs => hs)
              (fun _ hs => hs) (fun _ _ hs => hs) fun _ _ => trivial
          · exact fun v => Action.Triple.pure fun s hs => ⟨hs, v, rfl⟩

/-- The walk leaves an item for each parameter, in its place. -/
theorem proxifyEach_items (f : Bool) (way : Way) (before : List (NamedValue Reference))
    (ps : List Passed) :
    Action.Triple (fun s => s.outArgs = [] ∧ s.args = before ++ ps.map Passed.item)
      (ev.proxifyEach f way before ps) (fun _ => ItemsOf (ps.map Passed.param) before)
      fun _ => True := by
  induction ps generalizing before with
  | nil => exact Action.Triple.pure fun s hs => ⟨hs.1, [], rfl, hs.2⟩
  | cons p ps ih =>
      unfold proxifyEach
      split
      · refine (ih (before ++ [p.item])).weaken ?_ (fun _ _ h => h.cons) fun _ h => h
        rintro s ⟨hout, hargs⟩
        exact ⟨hout, by simpa using hargs⟩
      · refine Action.Triple.bind
          ((proxifyItem_item f p).weaken (fun _ hs => hs.1) (fun _ _ h => h) fun _ h => h) ?_
        rintro _ s ⟨hout, v, rfl⟩
        refine Action.Triple.bind (P := fun s => s.outArgs = [])
          (Q := fun _ s => s.outArgs = [] ∧
            s.args = before ++ [Passed.item ⟨p.param, v⟩] ++ ps.map Passed.item)
          (Action.Triple.modify fun s hs => ⟨hs, List.append_cons _ _ _⟩) (fun _ => ?_) s hout
        exact (ih _).weaken (fun _ h => h) (fun _ _ h => ItemsOf.cons h) fun _ h => h

theorem prepareReply_items {params : List (Nat × ParameterMode)} (honeway : l.isOneway = false) :
    Action.Triple (ItemsOf params []) (ev.prepareReply l)
      (fun _ s => ∃ ps : List Passed, ps.map Passed.param = params ∧
        s.args = (Way.request.passed ps).map Passed.item ∧
        s.outArgs = (Way.reply.passed ps).map Passed.item) fun _ => True := by
  unfold prepareReply
  rw [honeway, if_neg Bool.false_ne_true]
  apply Action.Triple.bind (Q := fun _ s => ∃ ps : List Passed, ps.map Passed.param = params ∧
    s.args = (Way.request.passed ps).map Passed.item ∧
    s.outArgs = (Way.reply.passed ps).map Passed.item)
  · apply Action.Triple.modify
    rintro s ⟨hout, ps, hparams, hargs⟩
    rw [List.nil_append] at hargs
    refine ⟨ps, hparams, hargs, ?_⟩
    dsimp only
    rw [hout, hargs, List.nil_append]
    exact outArgs_items ps
  · intro _
    unfold prepareResult
    cases l.result.tc with
    | none => exact Action.Triple.fail
    | some tc =>
        dsimp only
        split
        · exact Action.Triple.pure fun _ h => h
        · exact Action.Triple.modify fun _ h => h

/-- A request is worked on with the full list, and a request that is not a
one-way leaves in `out_args` the list of its reply. -/
theorem forwardRequest_items {params : List (Nat × ParameterMode)}
    (hl : ev.Used a (.firstOf params exceptions oneway result) l) (honeway : l.isOneway = false)
    (reqPoa : Poa) (decoded : Except Exn (List (Value ObjRef))) :
    Action.Triple (fun s => s.outArgs = []) (ev.forwardRequest reqPoa decoded (a, l))
      (fun _ s => ∃ ps : List Passed, ps.map Passed.param = params ∧
        s.args = (Way.request.passed ps).map Passed.item ∧
        s.outArgs = (Way.reply.passed ps).map Passed.item) fun _ => True := by
  have hcached := hl.cached (cached_first _ exceptions oneway result)
  unfold forwardRequest
  dsimp only
  rw [prepareRequest_items hcached.args]
  refine Action.Triple.bind (Q := fun items s => items = _ ∧ s.outArgs = [])
    (fun s hs => ⟨rfl, hs⟩) ?_
  rintro _ s ⟨rfl, hs⟩
  cases hargs : arguments ((params.map fun param => Passed.mk param (.plain [])).map
      Passed.item) decoded with
  | error e => trivial
  | ok args =>
      obtain ⟨ps, hparams, rfl⟩ : ∃ ps : List Passed, ps.map Passed.param = params ∧
          args = ps.map Passed.item := by
        cases decoded with
        | error e => cases hargs
        | ok values =>
            obtain ⟨ps, hparams, hitems⟩ := fill_items hargs
            rw [List.map_map] at hparams
            exact ⟨ps, hparams.trans (List.map_id params), hitems⟩
      subst hparams
      refine Action.Triple.bind (P := fun s => s.outArgs = [])
        (Q := fun _ s => s.outArgs = [] ∧ s.args = [] ++ ps.map Passed.item)
        (Action.Triple.modify fun s hs => ⟨hs, rfl⟩) (fun _ => ?_) s hs
      refine Action.Triple.bind (Q := fun _ => ItemsOf (ps.map Passed.param) []) ?_ fun _ =>
        (prepareReply_items honeway).bind fun _ => Action.Triple.pure fun _ h => h
      exact UpToTable.triple (fun s hs => hl.aligned _ .request hs.2)
        (proxifyEach_items _ .request [] ps) fun _ _ _ h => h

end Calls

/-- For every operation, whatever its parameters and their types, for both
lists made from them and after any earlier calls: each parameter that travels
meets its own item, no item is read past the end, and the item is rewritten
exactly if the type has a reference in it. -/
theorem proxifyParams_aligned {a : Nat} {ps : List Passed} {exceptions : List Nat}
    {oneway : Bool} {result : Option Nat} {l : ArgList Nat}
    (hl : ev.Used a (.firstOf (ps.map Passed.param) exceptions oneway result) l) (f : Bool)
    (way : Way) {s : Frame} (hs : s.args = (way.passed ps).map Passed.item) :
    ∃ t, (ev.proxifyParams f a l way.direction).run s =
      (((ev.proxifyEach f way [] (way.passed ps)).run s).1,
        { ((ev.proxifyEach f way [] (way.passed ps)).run s).2 with table := t }) :=
  hl.aligned f way hs

/-! `op (out string a, in Object b, inout Object c)`, called for the first time. -/

def shuffledCall : List Passed :=
  [⟨(3, .paramOut), .plain []⟩, ⟨(1, .paramIn), .object (some (.incoming pairRef))⟩,
    ⟨(1, .paramInout), .object none⟩]

def shuffledFrame : Frame :=
  ⟨.empty, pairRegistry, (Way.reply.passed shuffledCall).map Passed.item, [], none, none⟩

theorem proxifyParams_aligned_shuffled :
    ∃ t, (pairEvaluator.proxifyParams true 0
        (.firstOf (shuffledCall.map Passed.param) [] false (some 3)) .argOut).run
          shuffledFrame =
      (((pairEvaluator.proxifyEach true .reply [] (Way.reply.passed shuffledCall)).run
          shuffledFrame).1,
        { ((pairEvaluator.proxifyEach true .reply [] (Way.reply.passed shuffledCall)).run
          shuffledFrame).2 with table := t }) :=
  proxifyParams_aligned .first true .reply rfl

end GenericEvaluator

end Lorica
