import Lorica.EvaluatorPlan

/-!
What `evaluate_request`, `evaluate_reply` and `evaluate_exception` let pass.
Each has a plan made of the plans of the values it is handed, and the
references it hands back are all mapped exactly when every question of the
plan is answered with yes and no reference is passed by.
-/

namespace Lorica

open Machine

/-- The values of a frame, apart from the table and the registry. -/
structure Values where
  args : List (NamedValue Reference)
  outArgs : List (NamedValue Reference)
  result : Option (NamedValue Reference)
  encap : Option (NamedValue Reference)

def Frame.values (s : Frame) : Values := ⟨s.args, s.outArgs, s.result, s.encap⟩

def NamedValue.raw (nv : NamedValue ObjRef) : NamedValue Reference :=
  ⟨nv.flags, nv.tc, nv.value.map .incoming⟩

namespace GenericEvaluator

variable {ι : Type}

/-! ## Plans -/

section Plans

variable (ev : GenericEvaluator ι)

/-- What `must_proxy_` says, or will say. -/
def needs (arg : Arg Nat) : Except Fault Bool :=
  if arg.mustProxy = 0 then .ok false
  else if arg.mustProxy = -1 then
    match arg.tc with
    | none => .error .nullDereference
    | some tc => ev.types.hasObjref ev.stack tc
  else .ok true

def planItem (arg : Arg Nat) (nv : NamedValue Reference) : Plan :=
  match ev.needs arg with
  | .error cause => [.crash cause]
  | .ok false => passBy nv.value.refs
  | .ok true => ev.planAny nv.tc nv.value

/-- The references in the items of one direction. -/
def itemRefs (exclude : Flags) (items : List (NamedValue Reference)) : List Reference :=
  (items.filter fun nv => nv.flags ≠ exclude).flatMap fun nv => nv.value.refs

def planLoop (exclude : Flags) : List (Arg Nat) → List (NamedValue Reference) → Plan
  | [], rest => passBy (itemRefs exclude rest)
  | arg :: arguments, rest =>
      if arg.mode = exclude then planLoop exclude arguments rest
      else
        match nextItem exclude rest with
        | none => [.stop (.user "Bounds")]
        | some (_, nv, rest) => ev.planItem arg nv ++ planLoop exclude arguments rest

/-- The items that do not travel in a direction. -/
def excluded (direction : Flags) : Flags :=
  if direction = .argIn then .argOut else .argIn

def planParams (l : ArgList Nat) (direction : Flags)
    (args : List (NamedValue Reference)) : Plan :=
  if l.mustProxy direction = 0 then passBy (itemRefs (excluded direction) args)
  else ev.planLoop (excluded direction) l.args args

def resultRefs (result : Option (NamedValue Reference)) : List Reference :=
  match result with
  | none => []
  | some nv => nv.value.refs

def planResult (l : ArgList Nat) (result : Option (NamedValue Reference)) : Plan :=
  match ev.needs l.result with
  | .error cause => [.crash cause]
  | .ok false => passBy (resultRefs result)
  | .ok true =>
      match result with
      | none => [.crash .nullDereference]
      | some nv => ev.planAny nv.tc nv.value

end Plans

/-! ## The evaluator follows them -/

section Follows

variable {ev : GenericEvaluator ι} {f : Bool}

theorem mustProxy_follows {R : Values → Prop} (a : Nat) (place : FlagPlace)
    {arg : Arg Nat} {flag : Bool} (h : ev.needs arg = .ok flag) :
    Action.Follows (ev.look f) Frame.reg (fun s => R s.values) (ev.mustProxy a place arg) []
      fun _ flag' s => flag' = flag ∧ R s.values := by
  unfold mustProxy
  unfold needs at h
  split at h
  · next hzero =>
      obtain rfl := Except.ok.inj h
      rw [if_pos hzero]
      exact Action.Follows.pure fun s hs => ⟨rfl, hs⟩
  · next hzero =>
      rw [if_neg hzero]
      split at h
      · next hunknown =>
          rw [if_pos hunknown]
          cases htc : arg.tc with
          | none => simp [htc] at h
          | some tc =>
              simp only [htc] at h
              simp only [h]
              apply Action.Follows.andReturn
              · exact Action.Follows.modify (Q := fun _ _ s => R s.values)
                  (fun _ => rfl) fun s hs => hs
              · exact fun _ _ s hs => ⟨rfl, hs⟩
      · next hunknown =>
          obtain rfl := Except.ok.inj h
          rw [if_neg hunknown]
          exact Action.Follows.pure fun s hs => ⟨rfl, hs⟩

theorem mustProxy_fails {P : Frame → Prop} (a : Nat) (place : FlagPlace)
    {arg : Arg Nat} {cause : Fault} (h : ev.needs arg = .error cause) :
    Action.Follows (ev.look f) Frame.reg P (ev.mustProxy a place arg)
      [.crash cause] fun _ _ _ => False := by
  unfold mustProxy
  unfold needs at h
  split at h
  · exact absurd h (by simp)
  · next hzero =>
      rw [if_neg hzero]
      split at h
      · next hunknown =>
          rw [if_pos hunknown]
          cases htc : arg.tc with
          | none =>
              simp only [htc] at h
              obtain rfl := Except.error.inj h
              exact Action.Follows.fail
          | some tc =>
              simp only [htc] at h
              simp only [h]
              exact Action.Follows.fail
      · exact absurd h (by simp)

/-- An any in the registry's part of the state. -/
theorem onRegistry_proxifyAny_follows {R : Values → Prop} (tc : Nat)
    {v : Value Reference} (h : Raw v.refs) :
    Action.Follows (ev.look f) Frame.reg (fun s => R s.values)
      (onRegistry (ev.proxifyAny f tc v)) (ev.planAny tc v)
      fun answers v' s => Rewritten f answers v'.refs ∧ R s.values := by
  apply Action.Follows.weaken (Action.Follows.zoom (proxifyAny_follows tc h) fun _ _ => rfl)
  · exact fun s hs => hs
  · rintro answers v' _ ⟨hrewritten, s, m, hs, rfl⟩
    exact ⟨hrewritten, hs⟩

theorem proxifyIfMust_follows {R : Values → Prop} (a : Nat) (place : FlagPlace)
    (arg : Arg Nat) {nv : NamedValue Reference} (h : Raw nv.value.refs) :
    Action.Follows (ev.look f) Frame.reg (fun s => R s.values)
      (ev.proxifyIfMust f a place arg nv) (ev.planItem arg nv)
      fun answers nv' s => nv'.flags = nv.flags ∧ Rewritten f answers nv'.value.refs ∧
        R s.values := by
  unfold proxifyIfMust planItem
  cases hneeds : ev.needs arg with
  | error cause => exact Action.Follows.crash (mustProxy_fails a place hneeds)
  | ok flag =>
      apply Action.Follows.silent (mustProxy_follows a place hneeds)
      intro flag'
      apply Action.Follows.assumingAnd
      rintro rfl
      cases flag' with
      | false =>
          apply Action.Follows.overlook
          intro s hs
          exact ⟨rfl, rewritten_passBy f h, hs⟩
      | true =>
          apply Action.Follows.andReturn (onRegistry_proxifyAny_follows nv.tc h)
          exact fun answers v s hs => ⟨rfl, hs⟩

theorem nextItem_some {exclude : Flags} {rest skipped rest' : List (NamedValue Reference)}
    {nv : NamedValue Reference} (h : nextItem exclude rest = some (skipped, nv, rest')) :
    rest = skipped ++ nv :: rest' ∧ (∀ x ∈ skipped, x.flags = exclude) ∧
      nv.flags ≠ exclude := by
  induction rest generalizing skipped with
  | nil => exact absurd h (by simp [nextItem])
  | cons x rest ih =>
      unfold nextItem at h
      split at h
      · next hx =>
          obtain ⟨⟨skipped', nv', rest''⟩, hnext, heq⟩ := Option.map_eq_some_iff.mp h
          simp only [Prod.mk.injEq] at heq
          obtain ⟨rfl, rfl, rfl⟩ := heq
          obtain ⟨hrest, hskipped, hflags⟩ := ih hnext
          refine ⟨by rw [hrest, List.cons_append], ?_, hflags⟩
          rintro y hy
          rcases List.mem_cons.mp hy with rfl | hy
          · exact hx
          · exact hskipped y hy
      · next hx =>
          simp only [Option.some.injEq, Prod.mk.injEq] at h
          obtain ⟨rfl, rfl, rfl⟩ := h
          exact ⟨rfl, fun y hy => absurd hy (List.not_mem_nil), hx⟩

/-- The first item of a direction, behind items of the other one. -/
theorem itemRefs_skip {exclude : Flags} {skipped rest : List (NamedValue Reference)}
    {nv : NamedValue Reference} (hskipped : ∀ x ∈ skipped, x.flags = exclude)
    (hnv : nv.flags ≠ exclude) :
    itemRefs exclude (skipped ++ nv :: rest) = nv.value.refs ++ itemRefs exclude rest := by
  have hnone : skipped.filter (fun nv => nv.flags ≠ exclude) = [] := by
    rw [List.filter_eq_nil_iff]
    intro x hx
    simp [hskipped x hx]
  unfold itemRefs
  rw [List.filter_append, hnone, List.nil_append, List.filter_cons_of_pos (by simpa using hnv),
    List.flatMap_cons]

/-- The loop keeps what it handled before and rewrites the items of its
direction. The induction is on the arguments; the cursor only moves forward
over the items. -/
theorem paramsLoop_follows (a : Nat) (exclude : Flags) (v : Values) (i : Nat)
    (arguments : List (Arg Nat)) (before : List (NamedValue Reference))
    {rest : List (NamedValue Reference)} (hraw : Raw (itemRefs exclude rest)) :
    Action.Follows (ev.look f) Frame.reg
      (fun s => s.values = { v with args := before ++ rest })
      (ev.paramsLoop f a exclude i arguments before rest)
      (ev.planLoop exclude arguments rest)
      fun answers _ s => ∃ rest', Rewritten f answers (itemRefs exclude rest') ∧
        s.values = { v with args := before ++ rest' } := by
  induction arguments generalizing i before rest with
  | nil =>
      apply Action.Follows.overlook
      intro s hs
      exact ⟨rest, rewritten_passBy f hraw, hs⟩
  | cons arg arguments ih =>
      unfold paramsLoop planLoop
      split
      · exact ih (i + 1) before hraw
      · cases hnext : nextItem exclude rest with
        | none => exact Action.Follows.raise
        | some found =>
            obtain ⟨skipped, nv, rest'⟩ := found
            obtain ⟨rfl, hskipped, hflags⟩ := nextItem_some hnext
            rw [itemRefs_skip hskipped hflags] at hraw
            obtain ⟨hnv, hrest'⟩ := raw_append.mp hraw
            apply Action.Follows.bind
              (proxifyIfMust_follows (R := fun w => w = { v with
                args := before ++ (skipped ++ nv :: rest') }) a (.argument i) arg hnv)
            intro answers nv'
            refine Action.Follows.modifyThen (M := fun s =>
              (nv'.flags = nv.flags ∧ Rewritten f answers nv'.value.refs) ∧
              s.values = { v with args := before ++ skipped ++ [nv'] ++ rest' })
              (fun _ => rfl) ?_ ?_
            · rintro s ⟨hflags', hrewritten, hvalues⟩
              obtain ⟨-, houtArgs, hresult, hencap⟩ := Values.mk.inj hvalues
              refine ⟨⟨hflags', hrewritten⟩, ?_⟩
              simp only [Frame.values, houtArgs, hresult, hencap, List.append_assoc,
                List.singleton_append]
            apply Action.Follows.assumingAnd
            rintro ⟨hflags', hrewritten⟩
            apply Action.Follows.weaken (ih (i + 1) (before ++ skipped ++ [nv']) hrest')
            · exact fun s hs => hs
            · rintro answers' _ s ⟨rest'', hrewritten', hvalues⟩
              refine ⟨skipped ++ nv' :: rest'', ?_, by simpa using hvalues⟩
              rw [itemRefs_skip hskipped (hflags'.symm ▸ hflags)]
              exact rewritten_append hrewritten hrewritten'

theorem proxifyParams_follows (a : Nat) (l : ArgList Nat) (direction : Flags) (v : Values)
    (hraw : Raw (itemRefs (excluded direction) v.args)) :
    Action.Follows (ev.look f) Frame.reg (fun s => s.values = v)
      (ev.proxifyParams f a l direction) (ev.planParams l direction v.args)
      fun answers _ s => ∃ args, Rewritten f answers (itemRefs (excluded direction) args) ∧
        s.values = { v with args := args } := by
  unfold proxifyParams planParams
  split
  · apply Action.Follows.overlook
    intro s hs
    exact ⟨v.args, rewritten_passBy f hraw, hs⟩
  · apply Action.Follows.get
    intro s hs
    have hargs : s.args = v.args := congrArg Values.args hs
    rw [hargs]
    apply Action.Follows.weaken
      (paramsLoop_follows a (excluded direction) v 0 l.args [] hraw)
    · rintro s' rfl
      exact hs
    · exact fun answers _ s h => h

theorem replaceResult_follows (v : Values) (hraw : Raw (resultRefs v.result)) :
    Action.Follows (ev.look f) Frame.reg (fun s => s.values = v) (ev.replaceResult f)
      (match v.result with
        | none => [.crash .nullDereference]
        | some nv => ev.planAny nv.tc nv.value)
      fun answers _ s => ∃ result, Rewritten f answers (resultRefs result) ∧
        s.values = { v with result := result } := by
  apply Action.Follows.get
  intro s hs
  have hresult : s.result = v.result := congrArg Values.result hs
  rw [hresult]
  cases hv : v.result with
  | none => exact Action.Follows.fail
  | some nv =>
      rw [hv] at hraw
      have hany := @onRegistry_proxifyAny_follows ι ev f (fun w => w = v) nv.tc
        nv.value hraw
      refine Action.Follows.andModify (hany.weaken ?_ fun _ _ _ h => h) (fun _ _ => rfl) ?_
      · rintro s' rfl
        exact hs
      · rintro answers v' s' ⟨hrewritten, hvalues⟩
        have hparts := Values.mk.inj (hvalues : Values.mk .. = Values.mk ..)
        obtain ⟨hargs, houtArgs, -, hencap⟩ := hparts
        exact ⟨some { nv with value := v' }, hrewritten,
          by simp only [Frame.values, hargs, houtArgs, hencap]⟩

theorem proxifyResult_follows (a : Nat) (l : ArgList Nat) (v : Values)
    (hraw : Raw (resultRefs v.result)) :
    Action.Follows (ev.look f) Frame.reg (fun s => s.values = v)
      (ev.proxifyResult f a l) (ev.planResult l v.result)
      fun answers _ s => ∃ result, Rewritten f answers (resultRefs result) ∧
        s.values = { v with result := result } := by
  unfold proxifyResult planResult
  cases hneeds : ev.needs l.result with
  | error cause => exact Action.Follows.crash (mustProxy_fails a .result hneeds)
  | ok flag =>
      apply Action.Follows.silent (mustProxy_follows (R := fun w => w = v) a .result hneeds)
      intro flag'
      apply Action.Follows.assumingAnd
      rintro rfl
      cases flag' with
      | false =>
          apply Action.Follows.overlook
          intro s hs
          exact ⟨v.result, rewritten_passBy f hraw, hs⟩
      | true => exact replaceResult_follows v hraw

theorem argList_follows {R : Values → Prop} (a : Nat) (l : ArgList Nat)
    (t : OperationTable Nat) :
    Action.Follows (ev.look f) Frame.reg (fun s => R s.values) (argList (.ok (a, l, t))) []
      fun _ found s => found = (a, l) ∧ R s.values := by
  intro s hs
  exact ⟨(a, l), { s with table := t }, rfl, rfl, rfl, hs⟩

theorem argList_fails {P : Frame → Prop} (cause : Fault) :
    Action.Follows (ev.look f) Frame.reg P (argList (.error cause))
      [.crash cause] fun _ _ _ => False :=
  Action.Follows.crash Action.Follows.fail

theorem itemRefs_cons_skip {skip : Flags} {nv : NamedValue Reference}
    (h : nv.flags = skip) (rest : List (NamedValue Reference)) :
    itemRefs skip (nv :: rest) = itemRefs skip rest := by
  unfold itemRefs
  rw [List.filter_cons_of_neg (by simp [h])]

theorem itemRefs_cons {skip : Flags} {nv : NamedValue Reference}
    (h : nv.flags ≠ skip) (rest : List (NamedValue Reference)) :
    itemRefs skip (nv :: rest) = nv.value.refs ++ itemRefs skip rest := by
  unfold itemRefs
  rw [List.filter_cons_of_pos (by simp [h]), List.flatMap_cons]

/-- Decoding puts nothing else into the items of a direction. -/
theorem fill_refs {skip : Flags} {items args : List (NamedValue Reference)}
    {values : List (Value ObjRef)} (h : fill skip items values = .ok args) :
    ∀ r ∈ itemRefs skip args, ∃ v ∈ values, ∃ ref ∈ v.refs, r = .incoming ref := by
  induction items generalizing values args with
  | nil =>
      obtain rfl := Except.ok.inj h
      exact fun r hr => absurd hr List.not_mem_nil
  | cons nv rest ih =>
      unfold fill at h
      split at h
      · next hskip =>
          cases hfill : fill skip rest values with
          | error e => simp [hfill, Except.map] at h
          | ok args' =>
              rw [hfill] at h
              obtain rfl := Except.ok.inj h
              rw [itemRefs_cons_skip hskip]
              exact ih hfill
      · next hskip =>
          cases values with
          | nil => cases h
          | cons v values =>
              dsimp only at h
              cases hfill : fill skip rest values with
              | error e => simp [hfill, Except.map] at h
              | ok args' =>
                  rw [hfill] at h
                  obtain rfl := Except.ok.inj h
                  rw [itemRefs_cons (by exact hskip), Value.refs_map]
                  intro r hr
                  rcases List.mem_append.mp hr with hr | hr
                  · obtain ⟨ref, href, rfl⟩ := List.mem_map.mp hr
                    exact ⟨v, List.mem_cons_self, ref, href, rfl⟩
                  · obtain ⟨v', hv', hrest⟩ := ih hfill r hr
                    exact ⟨v', List.mem_cons_of_mem _ hv', hrest⟩

/-- They came off the wire. -/
theorem fill_raw {skip : Flags} {items args : List (NamedValue Reference)}
    {values : List (Value ObjRef)} (h : fill skip items values = .ok args) :
    Raw (itemRefs skip args) := by
  intro r hr
  obtain ⟨-, -, ref, -, rfl⟩ := fill_refs h r hr
  exact ⟨ref, rfl⟩

end Follows

/-! ## Requests, replies and exceptions -/

/-- A call of the evaluator with what it is handed. -/
inductive Traffic where
  | request (operation : String) (decoded : Except Exn (List (Value ObjRef)))
  | reply (operation : String) (args : List (NamedValue ObjRef))
      (result : Option (NamedValue ObjRef))
  | exception (operation exType : String) (decoded : Nat → Except Exn (Value ObjRef))

namespace Traffic

/-- The frame an evaluation starts in. -/
def start (t : OperationTable Nat) (reg : Registry) : Traffic → Frame
  | request _ _ => ⟨t, reg, [], [], none, none⟩
  | reply _ args result => ⟨t, reg, args.map NamedValue.raw, [], result.map .raw, none⟩
  | exception _ _ _ => ⟨t, reg, [], [], none, none⟩

/-- The references in what the evaluation hands on: the IN and INOUT arguments
of a request, the result and the INOUT and OUT arguments of a reply, and the
exception that was marshalled. -/
def handed (s : Frame) : Traffic → List Reference
  | request _ _ => itemRefs .argOut s.args
  | reply _ _ _ => resultRefs s.result ++ itemRefs .argIn s.args
  | exception _ _ _ => resultRefs s.encap

end Traffic

section Plans

variable (ev : GenericEvaluator ι)

def evaluate (reqPoa : Poa) : Traffic → EvalM Bool
  | .request operation decoded => ev.evaluateRequest operation reqPoa decoded
  | .reply operation _ _ => ev.evaluateReply operation reqPoa
  | .exception operation exType decoded =>
      ev.evaluateException operation reqPoa exType decoded

def planPrepare (l : ArgList Nat) : Plan :=
  if l.isOneway then []
  else
    match l.result.tc with
    | none => [.crash .nullDereference]
    | some _ => []

def planRequest (l : ArgList Nat) (decoded : Except Exn (List (Value ObjRef))) : Plan :=
  match prepareRequest l.args with
  | .error cause => [.crash cause]
  | .ok items =>
      match arguments items decoded with
      | .error e => [.stop e]
      | .ok args => ev.planParams l .argIn args ++ planPrepare l

def planReply (v : Values) (l : ArgList Nat) : Plan :=
  ev.planResult l v.result ++ ev.planParams l .argOut v.args

def planException (l : ArgList Nat) (exType : String)
    (decoded : Nat → Except Exn (Value ObjRef)) : Plan :=
  match ev.findException exType 0 l.exceptions with
  | none => []
  | some (_, arg, tc) =>
      match decoded tc with
      | .error e => [.stop e]
      | .ok v => ev.planItem arg ⟨.unset, tc, v.map .incoming⟩

def planFound (found : Except Fault (Nat × ArgList Nat × OperationTable Nat))
    (plan : ArgList Nat → Plan) : Plan :=
  match found with
  | .error cause => [.crash cause]
  | .ok (_, l, _) => plan l

def planReplyOf (t : OperationTable Nat) (operation : String) (v : Values) : Plan :=
  planFound (deref (.ok (t.find ev.cmp operation ev.typeId))) (ev.planReply v)

/-- The plan of an evaluation, from the table and what is handed in. -/
def planOf (t : OperationTable Nat) : Traffic → Plan
  | .request operation decoded =>
      planFound (deref (ev.lookup operation t)) fun l => ev.planRequest l decoded
  | .reply operation args result =>
      ev.planReplyOf t operation ⟨args.map NamedValue.raw, [], result.map .raw, none⟩
  | .exception operation exType decoded =>
      planFound (deref (.ok (t.find ev.cmp operation ev.typeId))) fun l =>
        ev.planException l exType decoded

end Plans

section Follows

variable {ev : GenericEvaluator ι} {f : Bool}

theorem planFound_follows {P : Frame → Prop} {R : Values → Prop} {α : Type}
    {found : Except Fault (Nat × ArgList Nat × OperationTable Nat)}
    {plan : ArgList Nat → Plan} {rest : Nat × ArgList Nat → EvalM α}
    {Q : List Bool → α → Frame → Prop} (hP : ∀ s, P s → R s.values)
    (h : ∀ a l, Action.Follows (ev.look f) Frame.reg (fun s => R s.values)
      (rest (a, l)) (plan l) Q) :
    Action.Follows (ev.look f) Frame.reg P (argList found >>= rest)
      (planFound found plan) Q := by
  cases found with
  | error cause => exact Action.Follows.crash (argList_fails cause)
  | ok found =>
      obtain ⟨a, l, t⟩ := found
      apply Action.Follows.silent ((argList_follows a l t).weaken hP fun _ _ _ hs => hs)
      intro found
      apply Action.Follows.assumingAnd
      rintro rfl
      exact h a l

theorem prepareReply_follows {R : List (NamedValue Reference) → Prop} (l : ArgList Nat) :
    Action.Follows (ev.look f) Frame.reg (fun s => R s.args) (ev.prepareReply l)
      (planPrepare l) fun answers _ s => answers = [] ∧ R s.args := by
  unfold prepareReply planPrepare
  split
  · exact Action.Follows.pure fun s hs => ⟨rfl, hs⟩
  · refine Action.Follows.modifyThen (M := fun s => R s.args) (fun _ => rfl)
      (fun s hs => hs) ?_
    unfold prepareResult
    cases l.result.tc with
    | none => exact Action.Follows.fail
    | some tc =>
        dsimp only
        split
        · exact Action.Follows.pure fun s hs => ⟨rfl, hs⟩
        · exact Action.Follows.modify (fun _ => rfl) fun s hs => ⟨rfl, hs⟩

theorem evaluateRequest_follows (reqPoa : Poa) (operation : String)
    (decoded : Except Exn (List (Value ObjRef))) (t : OperationTable Nat) :
    Action.Follows (ev.look (Registry.wantOutfacing ev.mapper reqPoa)) Frame.reg
      (fun s => s.table = t ∧ s.values = ⟨[], [], none, none⟩)
      (ev.evaluateRequest operation reqPoa decoded)
      (ev.planOf t (.request operation decoded))
      fun answers b s => Rewritten (Registry.wantOutfacing ev.mapper reqPoa) answers
        (itemRefs .argOut s.args) ∧ (b = false → answers = []) := by
  rw [evaluateRequest_eq]
  apply Action.Follows.get
  rintro start ⟨rfl, hvalues⟩
  apply planFound_follows (R := fun v => v = ⟨[], [], none, none⟩)
  · rintro s rfl
    exact hvalues
  · intro a l
    unfold forwardRequest planRequest
    cases hitems : prepareRequest l.args with
    | error cause =>
        dsimp only
        rw [hitems]
        exact Action.Follows.faultThen
    | ok items =>
        dsimp only
        rw [hitems]
        apply Action.Follows.valueThen
        cases hargs : arguments items decoded with
        | error e => exact Action.Follows.raiseThen
        | ok args =>
            have hraw : Raw (itemRefs .argOut args) := by
              cases decoded with
              | error e => exact absurd hargs (by simp [arguments])
              | ok values => exact fill_raw hargs
            refine Action.Follows.modifyThen
              (M := fun s => s.values = ⟨args, [], none, none⟩) (fun _ => rfl) ?_ ?_
            · intro s hs
              obtain ⟨-, houtArgs, hresult, hencap⟩ := Values.mk.inj hs
              simp only [Frame.values, houtArgs, hresult, hencap]
            · apply Action.Follows.bind
                (proxifyParams_follows a l .argIn ⟨args, [], none, none⟩ hraw)
              intro answers _
              apply Action.Follows.opening
              intro args'
              apply Action.Follows.andReturn
              · apply (prepareReply_follows (R := fun args =>
                  Rewritten _ answers (itemRefs .argOut args)) l).weaken
                · rintro s ⟨hrewritten, hvalues⟩
                  have hargs' : s.args = args' := congrArg Values.args hvalues
                  rw [hargs']
                  exact hrewritten
                · exact fun _ _ _ h => h
              · rintro answers' _ s ⟨rfl, hrewritten⟩
                rw [List.append_nil]
                exact ⟨hrewritten, fun h => absurd h (by simp)⟩

/-- A reply, whatever the items and the result were before. -/
theorem evaluateReply_follows (reqPoa : Poa) (operation : String) (v : Values)
    (hresult : Raw (resultRefs v.result)) (hargs : Raw (itemRefs .argIn v.args))
    (t : OperationTable Nat) :
    Action.Follows (ev.look (Registry.wantOutfacing ev.mapper reqPoa)) Frame.reg
      (fun s => s.table = t ∧ s.values = v)
      (ev.evaluateReply operation reqPoa) (ev.planReplyOf t operation v)
      fun answers b s => Rewritten (Registry.wantOutfacing ev.mapper reqPoa) answers
        (resultRefs s.result ++ itemRefs .argIn s.args) ∧ (b = false → answers = []) := by
  apply Action.Follows.get
  rintro start ⟨rfl, hvalues⟩
  apply planFound_follows (R := fun w => w = v)
  · rintro s rfl
    exact hvalues
  · intro a l
    apply Action.Follows.bind (proxifyResult_follows a l v hresult)
    intro answers _
    apply Action.Follows.opening
    intro result'
    apply Action.Follows.assumingAnd
    intro hrewritten
    apply Action.Follows.andReturn
      (proxifyParams_follows a l .argOut { v with result := result' } hargs)
    rintro answers' _ s ⟨args', hrewritten', hvalues'⟩
    have hargs' : s.args = args' := congrArg Values.args hvalues'
    have hresult' : s.result = result' := congrArg Values.result hvalues'
    rw [hargs', hresult']
    exact ⟨rewritten_append hrewritten hrewritten', fun h => absurd h (by simp)⟩

theorem evaluateException_follows (reqPoa : Poa) (operation exType : String)
    (decoded : Nat → Except Exn (Value ObjRef)) (t : OperationTable Nat) :
    Action.Follows (ev.look (Registry.wantOutfacing ev.mapper reqPoa)) Frame.reg
      (fun s => s.table = t ∧ s.encap = none)
      (ev.evaluateException operation reqPoa exType decoded)
      (ev.planOf t (.exception operation exType decoded))
      fun answers b s => Rewritten (Registry.wantOutfacing ev.mapper reqPoa) answers
        (resultRefs s.encap) ∧ (b = false → answers = []) := by
  apply Action.Follows.get
  rintro start ⟨rfl, hnone⟩
  apply planFound_follows (R := fun v => v.encap = none)
  · rintro s rfl
    exact hnone
  · intro a l
    unfold planException
    dsimp only
    cases ev.findException exType 0 l.exceptions with
    | none =>
        apply Action.Follows.pure
        intro s hs
        rw [show s.encap = none from hs]
        exact ⟨rewritten_nil _, fun _ => rfl⟩
    | some found =>
        obtain ⟨i, arg, tc⟩ := found
        dsimp only
        unfold proxifyException
        cases decoded tc with
        | error e => exact Action.Follows.raise
        | ok v =>
            rw [← List.append_nil (match Except.ok v with
              | .error e => [Step.stop e]
              | .ok v => ev.planItem arg ⟨.unset, tc, v.map .incoming⟩)]
            apply Action.Follows.bind (proxifyIfMust_follows
              (R := fun v => v.encap = none) a (.exception i) arg (raw_incoming v))
            intro answers nv'
            refine Action.Follows.modifyThen (M := fun s => s.encap = some nv' ∧
              Rewritten _ answers nv'.value.refs) (fun _ => rfl)
              (fun s hs => ⟨rfl, hs.2.1⟩) ?_
            apply Action.Follows.pure
            rintro s ⟨hencap, hrewritten⟩
            rw [hencap, List.append_nil]
            exact ⟨hrewritten, fun h => absurd h (by simp)⟩

theorem evaluate_follows (reqPoa : Poa) (traffic : Traffic) (t : OperationTable Nat)
    (reg : Registry) :
    Action.Follows (ev.look (Registry.wantOutfacing ev.mapper reqPoa)) Frame.reg
      (fun s => s = traffic.start t reg) (ev.evaluate reqPoa traffic)
      (ev.planOf t traffic)
      fun answers b s => Rewritten (Registry.wantOutfacing ev.mapper reqPoa) answers
        (traffic.handed s) ∧ (b = false → answers = []) := by
  cases traffic with
  | request operation decoded =>
      apply (evaluateRequest_follows reqPoa operation decoded t).weaken
      · rintro s rfl
        exact ⟨rfl, rfl⟩
      · exact fun _ _ _ h => h
  | reply operation args result =>
      have hargs : Raw (itemRefs .argIn (args.map NamedValue.raw)) := by
        intro r hr
        obtain ⟨nv, hnv, hr⟩ := List.mem_flatMap.mp hr
        obtain ⟨nv, -, rfl⟩ := List.mem_map.mp (List.mem_of_mem_filter hnv)
        exact raw_incoming nv.value r hr
      have hresult : Raw (resultRefs (result.map NamedValue.raw)) := by
        cases result with
        | none => exact fun r hr => absurd hr (List.not_mem_nil)
        | some nv => exact raw_incoming nv.value
      apply (evaluateReply_follows reqPoa operation
        ⟨args.map NamedValue.raw, [], result.map .raw, none⟩ hresult hargs t).weaken
      · rintro s rfl
        exact ⟨rfl, rfl⟩
      · exact fun _ _ _ h => h
  | exception operation exType decoded =>
      apply (evaluateException_follows reqPoa operation exType decoded t).weaken
      · rintro s rfl
        exact ⟨rfl, rfl⟩
      · exact fun _ _ _ h => h

end Follows

/-! ## Completeness -/

section Completeness

variable (ev : GenericEvaluator ι) (reqPoa : Poa) (traffic : Traffic)
  (t : OperationTable Nat) (reg : Registry)

/-- The evaluation ends with an exception, with false, or with true and every
reference it hands on was returned by `mapped_for_native`. -/
def Complete : Prop :=
  match (ev.evaluate reqPoa traffic).run (traffic.start t reg) with
  | (.ok true, s) => Crossing (Registry.wantOutfacing ev.mapper reqPoa) (traffic.handed s)
  | (.ok false, _) => True
  | (.raised _, _) => True
  | (.fault _, _) => False

/-- Looking up what the plan visits, in that order, ends with an exception, or
it maps every reference and the plan passes none by. A plan that runs into
undefined behaviour ends with neither. -/
def Covered : Prop :=
  match (Action.sweep (ev.look (Registry.wantOutfacing ev.mapper reqPoa))
    (ev.planOf t traffic)).run reg with
  | (.ok answers, _) => AllMapped answers
  | (.raised _, _) => True
  | (.fault _, _) => False

/-- For every signature, value, table and registry: no unmapped reference
passes exactly when the walk reaches every reference and each is mapped. -/
theorem complete_iff_covered :
    ev.Complete reqPoa traffic t reg ↔ ev.Covered reqPoa traffic t reg := by
  have hview : (traffic.start t reg).reg = reg := by
    cases traffic <;> rfl
  have hrun := @evaluate_follows ι ev reqPoa traffic t reg (traffic.start t reg) rfl
  unfold Complete Covered
  rw [hview] at hrun
  split at hrun
  · next answers m hsweep =>
      obtain ⟨b, s, hevaluate, -, hrewritten, hfalse⟩ := hrun
      rw [hevaluate, hsweep]
      cases b with
      | true => exact hrewritten.crossing
      | false => simp [hfalse rfl, AllMapped]
  · next e m hsweep =>
      obtain ⟨s, hevaluate, -⟩ := hrun
      rw [hevaluate, hsweep]
  · next cause m hsweep =>
      obtain ⟨s, hevaluate, -⟩ := hrun
      rw [hevaluate, hsweep]

end Completeness

/-! An evaluator for one interface with `void op (in Object x)`. -/

def sampleTypes : TypeGraph where
  node tc :=
    match tc with
    | 0 => .tkVoid
    | 1 => .tkObjref
    | 2 => .tkValue [1]
    | _ => .tkBasic
  aliases _ := 0
  alias_lt tc content h := by
    split at h <;> simp at h

/-- The parameter of the operation has the given type. -/
def sampleEvaluator (param : Nat) : GenericEvaluator Unit where
  typeId := "IDL:I:1.0"
  intDef := ()
  repo :=
    { id := fun _ => "IDL:I:1.0"
      baseInterfaces := fun _ => []
      attributes := fun _ => []
      operations := fun _ => [⟨"op", false, 0, [(param, .paramIn)], []⟩] }
  prims := ⟨0, 3, 3⟩
  cmp := .sign
  types := sampleTypes
  dynAnyRefuses _ := none
  stack := 8
  orb := .plain
  inst := ⟨0, 0⟩
  mapper := 0

def sampleRef : ObjRef := ⟨"IDL:J:1.0", none, "IOR:native", false, false⟩

/-- A registry whose only mapper knows the interface, but not the type of the
reference. -/
def sampleRegistry : Registry where
  mappers := [.new true (· == "IDL:I:1.0")]
  values := ⟨fun _ => none, 0⟩
  hasSecurity := false
  history := []

/-- A reference that no mapper maps is forwarded as it came. -/
theorem not_complete_unmapped :
    ¬ (sampleEvaluator 1).Complete ⟨0, true⟩
      (.request "op" (.ok [.object (some sampleRef)]))
      (OperationTable.create .sign (sampleEvaluator 1).prims) sampleRegistry := by
  intro h
  let traffic := Traffic.request "op" (.ok [.object (some sampleRef)])
  let t := OperationTable.create .sign (sampleEvaluator 1).prims
  let run := ((sampleEvaluator 1).evaluate ⟨0, true⟩ traffic).run
    (traffic.start t sampleRegistry)
  have houtcome : run.1 = .ok true := by decide
  have hhanded : traffic.handed run.2 = [.incoming sampleRef] := by decide
  have hcrossing : Crossing false (traffic.handed run.2) := by
    have hrun : run = (.ok true, run.2) := Prod.ext houtcome rfl
    unfold Complete at h
    rw [show ((sampleEvaluator 1).evaluate ⟨0, true⟩ traffic).run
      (traffic.start t sampleRegistry) = (.ok true, run.2) from hrun] at h
    exact h
  rw [hhanded] at hcrossing
  exact absurd (hcrossing _ (List.mem_cons_self ..)) (by decide)

end GenericEvaluator

end Lorica
