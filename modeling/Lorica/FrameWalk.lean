import Lorica.Facing
import Lorica.ValueWalk

/-!
What the three evaluations and the reply handler leave behind, when every
reference they are handed is known to come to something good. The order is on
the registry alone: the table, the items and the answers may change as they
like.
-/

namespace Lorica

open Machine

namespace GenericEvaluator

open Action

variable {ι : Type} {ev : GenericEvaluator ι} {env : Surroundings} {f facing : Bool}
  {le : Registry → Registry → Prop} {I : Registry → Prop} {Good : Reference → Prop}

/-- Frames go up as their registries do. -/
def Onward (le : Registry → Registry → Prop) (s s' : Frame) : Prop := le s.reg s'.reg

instance onwardRefl [Std.Refl le] : Std.Refl (Onward le) where
  refl s := refl_of le s.reg

instance onwardTrans [IsTrans Registry le] : IsTrans Frame (Onward le) where
  trans _ _ _ h h' := trans_of le h h'

/-- Left alone or mapped, the reference comes to something good. -/
def Clears (ev : GenericEvaluator ι) (f : Bool) (le : Registry → Registry → Prop)
    (I : Registry → Prop) (Good : Reference → Prop) (r : Reference) : Prop :=
  Handles ev f le I (fun _ _ r' => Good r') r

/-- A condition on the registry and one on the values of the frame. -/
def At (I : Registry → Prop) (R : Values → Prop) (s : Frame) : Prop := I s.reg ∧ R s.values

variable [Std.Refl le] [IsTrans Registry le] {R : Values → Prop}

theorem proxifyAny_clears (hI : Stable le I) (tc : Nat) {v : Value Reference}
    (h : ∀ r ∈ v.refs, Clears ev f le I Good r) :
    Evolves le I (ev.proxifyAny f tc v) fun v' reg => (∀ r ∈ v'.refs, Good r) ∧ I reg := by
  refine ((proxifyAny_walks hI (fun _ _ _ _ _ hgood => hgood) tc h).keeping hI).weaken
    (fun _ hreg => hreg) fun v' reg hwalk => ⟨fun r' hr' => ?_, hwalk.2⟩
  obtain ⟨r, -, hgood⟩ := hwalk.1.exists_left r' hr'
  exact hgood

omit [Std.Refl le] [IsTrans Registry le] in
theorem onRegistry_walks {α : Type} {x : RegistryM α} {Q : α → Prop}
    (h : Evolves le I x fun a reg => Q a ∧ I reg) :
    Evolves (Onward le) (At I R) (onRegistry x) fun a s => Q a ∧ At I R s :=
  h.zoom (fun _ hs => hs.1) (fun _ _ _ hle => hle)
    fun _ _ _ hs _ ha => ⟨ha.1, ha.2, hs.2⟩

omit [IsTrans Registry le] in
/-- The flag is in the table. -/
theorem mustProxy_walks (a : Nat) (place : FlagPlace) (arg : Arg Nat) :
    Evolves (Onward le) (At I R) (ev.mustProxy a place arg) fun _ s => At I R s := by
  unfold mustProxy
  split
  · exact Evolves.pure fun _ hs => hs
  · split
    · cases arg.tc with
      | none => exact Evolves.fail
      | some tc =>
          dsimp only
          cases ev.types.hasObjref ev.stack tc with
          | error cause => exact Evolves.fail
          | ok flag =>
              intro s hs
              exact ⟨refl_of le s.reg, hs⟩
    · exact Evolves.pure fun _ hs => hs

theorem proxifyIfMust_walks (hI : Stable le I) (a : Nat) (place : FlagPlace) (arg : Arg Nat)
    {nv : NamedValue Reference} (h : ∀ r ∈ nv.value.refs, Clears ev f le I Good r) :
    Evolves (Onward le) (At I R) (ev.proxifyIfMust f a place arg nv) fun nv' s =>
      (nv'.flags = nv.flags ∧ ∀ r ∈ nv'.value.refs, Good r) ∧ At I R s := by
  refine (mustProxy_walks a place arg).bind fun must => ?_
  cases must with
  | false =>
      refine Evolves.pure fun s hs => ⟨⟨rfl, fun r hr => ?_⟩, hs⟩
      exact (h r hr).left s.reg hs.1
  | true =>
      refine (onRegistry_walks (proxifyAny_clears hI nv.tc h)).bind fun v => ?_
      exact Evolves.pure fun s hs => ⟨⟨rfl, hs.1⟩, hs.2⟩

/-- The induction is on the arguments; what is behind the cursor stays. -/
theorem paramsLoop_walks (hI : Stable le I) (a : Nat) (exclude : Flags) (v : Values) (i : Nat)
    (arguments : List (Arg Nat)) (before : List (NamedValue Reference))
    {rest : List (NamedValue Reference)}
    (h : ∀ r ∈ itemRefs exclude rest, Clears ev f le I Good r) :
    Evolves (Onward le) (At I fun w => w = { v with args := before ++ rest })
      (ev.paramsLoop f a exclude i arguments before rest) fun _ s =>
        ∃ rest', (∀ r ∈ itemRefs exclude rest', Good r) ∧
          At I (fun w => w = { v with args := before ++ rest' }) s := by
  induction arguments generalizing i before rest with
  | nil =>
      refine Evolves.pure fun s hs => ⟨rest, fun r hr => ?_, hs⟩
      exact (h r hr).left s.reg hs.1
  | cons arg arguments ih =>
      unfold paramsLoop
      split
      · exact ih (i + 1) before h
      · cases hnext : nextItem exclude rest with
        | none => exact Evolves.raise
        | some found =>
            obtain ⟨skipped, nv, rest'⟩ := found
            obtain ⟨rfl, hskipped, hflags⟩ := nextItem_some hnext
            rw [itemRefs_skip hskipped hflags] at h
            obtain ⟨hnv, hrest'⟩ := List.forall_mem_append.mp h
            refine (proxifyIfMust_walks hI a (.argument i) arg hnv).bind fun nv' => ?_
            refine Evolves.assuming fun hmade => ?_
            obtain ⟨hflags', hgood⟩ := hmade
            refine Evolves.bind (Q := fun _ => At I fun w =>
              w = { v with args := (before ++ skipped ++ [nv']) ++ rest' }) ?_ fun _ => ?_
            · refine Evolves.modify fun s hs => ⟨refl_of le s.reg, hs.1, ?_⟩
              obtain ⟨-, houtArgs, hresult, hencap⟩ := Values.mk.inj hs.2
              simp only [Frame.values, houtArgs, hresult, hencap, List.append_assoc,
                List.singleton_append]
            · refine (ih (i + 1) (before ++ skipped ++ [nv']) hrest').weaken (fun _ hs => hs) ?_
              rintro _ s ⟨rest'', hgood', hs⟩
              refine ⟨skipped ++ nv' :: rest'', ?_, by simpa [At] using hs⟩
              rw [itemRefs_skip hskipped (hflags'.symm ▸ hflags)]
              exact List.forall_mem_append.mpr ⟨hgood, hgood'⟩

theorem proxifyParams_walks (hI : Stable le I) (a : Nat) (l : ArgList Nat) (direction : Flags)
    (v : Values) (h : ∀ r ∈ itemRefs (excluded direction) v.args, Clears ev f le I Good r) :
    Evolves (Onward le) (At I fun w => w = v) (ev.proxifyParams f a l direction) fun _ s =>
      ∃ args, (∀ r ∈ itemRefs (excluded direction) args, Good r) ∧
        At I (fun w => w = { v with args := args }) s := by
  unfold proxifyParams
  split
  · refine Evolves.pure fun s hs => ⟨v.args, fun r hr => ?_, hs⟩
    exact (h r hr).left s.reg hs.1
  · refine Evolves.get fun s hs => ?_
    have hargs : s.args = v.args := congrArg Values.args hs.2
    rw [hargs]
    exact (paramsLoop_walks hI a (excluded direction) v 0 l.args [] h).starting
      (by rintro _ rfl; exact hs)

theorem replaceResult_walks (hI : Stable le I) (v : Values)
    (h : ∀ r ∈ resultRefs v.result, Clears ev f le I Good r) :
    Evolves (Onward le) (At I fun w => w = v) (ev.replaceResult f) fun _ s =>
      ∃ result, (∀ r ∈ resultRefs result, Good r) ∧
        At I (fun w => w = { v with result := result }) s := by
  refine Evolves.get fun s hs => ?_
  have hresult : s.result = v.result := congrArg Values.result hs.2
  rw [hresult]
  cases hv : v.result with
  | none => exact Evolves.fail
  | some nv =>
      rw [hv] at h
      refine ((onRegistry_walks (R := fun w => w = v) (proxifyAny_clears hI nv.tc h)).starting
        (by rintro _ rfl; exact hs)).bind fun v' => ?_
      refine Evolves.modify fun s' hs' => ⟨refl_of le s'.reg,
        some { nv with value := v' }, hs'.1, hs'.2.1, ?_⟩
      obtain ⟨hargs, houtArgs, -, hencap⟩ := Values.mk.inj hs'.2.2
      simp only [Frame.values, hargs, houtArgs, hencap]

theorem proxifyResult_walks (hI : Stable le I) (a : Nat) (l : ArgList Nat) (v : Values)
    (h : ∀ r ∈ resultRefs v.result, Clears ev f le I Good r) :
    Evolves (Onward le) (At I fun w => w = v) (ev.proxifyResult f a l) fun _ s =>
      ∃ result, (∀ r ∈ resultRefs result, Good r) ∧
        At I (fun w => w = { v with result := result }) s := by
  refine (mustProxy_walks a .result l.result).bind fun must => ?_
  cases must with
  | false =>
      refine Evolves.pure fun s hs => ⟨v.result, fun r hr => ?_, hs⟩
      exact (h r hr).left s.reg hs.1
  | true => exact replaceResult_walks hI v h

/-! ## The three evaluations -/

omit [IsTrans Registry le] in
theorem argList_walks (found : Except Fault (Nat × ArgList Nat × OperationTable Nat)) :
    Evolves (Onward le) (At I R) (argList found) fun _ s => At I R s := by
  cases found with
  | error cause => exact Evolves.fail
  | ok found => exact fun s hs => ⟨refl_of le s.reg, hs⟩

/-- The references in what was decoded. -/
def Decoded (decoded : Except Exn (List (Value ObjRef))) (ref : ObjRef) : Prop :=
  ∃ values, decoded = .ok values ∧ ∃ v ∈ values, ref ∈ v.refs

theorem arguments_refs {items args : List (NamedValue Reference)}
    {decoded : Except Exn (List (Value ObjRef))} (h : arguments items decoded = .ok args) :
    ∀ r ∈ itemRefs .argOut args, ∃ ref, Decoded decoded ref ∧ r = .incoming ref := by
  cases decoded with
  | error e => cases h
  | ok values =>
      intro r hr
      obtain ⟨v, hv, ref, href, rfl⟩ := fill_refs h r hr
      exact ⟨ref, ⟨values, rfl, v, hv, href⟩, rfl⟩

omit [IsTrans Registry le] in
theorem prepareReply_walks [IsTrans Registry le] {P : List (NamedValue Reference) → Prop}
    (l : ArgList Nat) :
    Evolves (Onward le) (At I fun w => P w.args) (ev.prepareReply l) fun _ s =>
      At I (fun w => P w.args) s := by
  unfold prepareReply
  split
  · exact Evolves.pure fun _ hs => hs
  · refine Evolves.bind (Q := fun _ => At I fun w => P w.args)
      (Evolves.modify fun s hs => ⟨refl_of le s.reg, hs⟩) fun _ => ?_
    unfold prepareResult
    cases l.result.tc with
    | none => exact Evolves.fail
    | some tc =>
        dsimp only
        split
        · exact Evolves.pure fun _ hs => hs
        · exact Evolves.modify fun s hs => ⟨refl_of le s.reg, hs⟩

theorem evaluateRequest_walks (hI : Stable le I) (reqPoa : Poa) (operation : String)
    (decoded : Except Exn (List (Value ObjRef)))
    (hf : Registry.wantOutfacing ev.mapper reqPoa = f)
    (h : ∀ ref, Decoded decoded ref → Clears ev f le I Good (.incoming ref)) :
    Evolves (Onward le) (At I fun w => w = ⟨[], [], none, none⟩)
      (ev.evaluateRequest operation reqPoa decoded) fun _ s =>
        At I (fun w => ∀ r ∈ itemRefs .argOut w.args, Good r) s := by
  rw [evaluateRequest_eq]
  refine Evolves.get fun start hstart => ?_
  refine ((argList_walks _).starting (by rintro _ rfl; exact hstart)).bind fun found => ?_
  obtain ⟨a, l⟩ := found
  refine (Evolves.ofExcept fun items hitems s hs => (⟨hitems, hs⟩ :
    prepareRequest l.args = .ok items ∧ At I (fun w => w = ⟨[], [], none, none⟩) s)).bind
      fun items => Evolves.assuming fun _ => ?_
  cases hargs : arguments items decoded with
  | error e => exact Evolves.raiseThen
  | ok args =>
      have hitems : ∀ r ∈ itemRefs .argOut args, Clears ev f le I Good r := by
        intro r hr
        obtain ⟨ref, href, rfl⟩ := arguments_refs hargs r hr
        exact h ref href
      refine Evolves.bind (Q := fun _ => At I fun w => w = ⟨args, [], none, none⟩) ?_ fun _ => ?_
      · refine Evolves.modify fun s hs => ⟨refl_of le s.reg, hs.1, ?_⟩
        obtain ⟨-, houtArgs, hresult, hencap⟩ := Values.mk.inj hs.2
        simp only [Frame.values, houtArgs, hresult, hencap]
      · rw [hf]
        refine (proxifyParams_walks hI a l .argIn ⟨args, [], none, none⟩ hitems).bind fun _ => ?_
        refine Evolves.opening fun args' => Evolves.assuming fun hgood => ?_
        refine Evolves.bind ((prepareReply_walks (I := I) (P := fun args =>
          ∀ r ∈ itemRefs .argOut args, Good r) l).starting ?_) fun _ => ?_
        · intro s hs
          refine ⟨hs.1, ?_⟩
          rw [hs.2]
          exact hgood
        · exact Evolves.pure fun _ hs => hs

theorem evaluateReply_walks (hI : Stable le I) (reqPoa : Poa) (operation : String) (v : Values)
    (hf : Registry.wantOutfacing ev.mapper reqPoa = f)
    (hresult : ∀ r ∈ resultRefs v.result, Clears ev f le I Good r)
    (hargs : ∀ r ∈ itemRefs .argIn v.args, Clears ev f le I Good r) :
    Evolves (Onward le) (At I fun w => w = v) (ev.evaluateReply operation reqPoa) fun _ s =>
      At I (fun w => ∀ r ∈ resultRefs w.result ++ itemRefs .argIn w.args, Good r) s := by
  refine Evolves.get fun start hstart => ?_
  refine ((argList_walks _).starting (by rintro _ rfl; exact hstart)).bind fun found => ?_
  obtain ⟨a, l⟩ := found
  rw [hf]
  refine (proxifyResult_walks hI a l v hresult).bind fun _ => ?_
  refine Evolves.opening fun result => Evolves.assuming fun hgood => ?_
  refine (proxifyParams_walks hI a l .argOut { v with result := result } hargs).bind fun _ => ?_
  refine Evolves.opening fun args => Evolves.assuming fun hgood' => ?_
  refine Evolves.pure fun s hs => ⟨hs.1, ?_⟩
  rw [hs.2]
  exact List.forall_mem_append.mpr ⟨hgood, hgood'⟩

theorem evaluateException_walks (hI : Stable le I) (reqPoa : Poa) (operation exType : String)
    (decoded : Nat → Except Exn (Value ObjRef))
    (hf : Registry.wantOutfacing ev.mapper reqPoa = f)
    (h : ∀ tc v, decoded tc = .ok v → ∀ ref ∈ v.refs, Clears ev f le I Good (.incoming ref)) :
    Evolves (Onward le) (At I fun w => w.encap = none)
      (ev.evaluateException operation reqPoa exType decoded) fun _ s =>
        At I (fun w => ∀ r ∈ resultRefs w.encap, Good r) s := by
  refine Evolves.get fun start hstart => ?_
  refine ((argList_walks _).starting (by rintro _ rfl; exact hstart)).bind fun found => ?_
  obtain ⟨a, l⟩ := found
  dsimp only
  cases ev.findException exType 0 l.exceptions with
  | none =>
      refine Evolves.pure fun s hs => ⟨hs.1, ?_⟩
      have hnone : s.values.encap = none := hs.2
      dsimp only
      rw [hnone]
      exact fun r hr => absurd hr List.not_mem_nil
  | some found =>
      obtain ⟨i, arg, tc⟩ := found
      dsimp only
      unfold proxifyException
      cases hdecoded : decoded tc with
      | error e => exact Evolves.raise
      | ok v =>
          have hv : ∀ r ∈ (v.map Reference.incoming).refs, Clears ev f le I Good r := by
            intro r hr
            rw [Value.refs_map] at hr
            obtain ⟨ref, href, rfl⟩ := List.mem_map.mp hr
            exact h tc v hdecoded ref href
          dsimp only [Except.map]
          rw [hf]
          refine (@proxifyIfMust_walks _ _ _ _ _ _ _ _ _ hI a (.exception i) arg
            ⟨.unset, tc, v.map .incoming⟩ hv).bind fun nv' => ?_
          refine Evolves.assuming fun hgood => ?_
          refine Evolves.bind (Q := fun _ => At I fun w => ∀ r ∈ resultRefs w.encap, Good r)
            (Evolves.modify fun s hs => ⟨refl_of le s.reg, hs.1, hgood.2⟩) fun _ => ?_
          exact Evolves.pure fun _ hs => hs

/-! ## A passage as a whole -/

/-- The references that a message brings along. -/
def Passage.Brings : Passage → ObjRef → Prop
  | .request _ decoded, ref => Decoded decoded ref
  | .reply _ (.response result outArgs), ref =>
      (∃ tc v, result tc = .ok v ∧ ref ∈ v.refs) ∨ Decoded outArgs ref
  | .reply _ (.excep body _), ref => ∃ tc v, body.exception tc = .ok v ∧ ref ∈ v.refs
  | .reply _ (.locationForward fwd _), ref => fwd = .ok (some (some ref))

/-- The facing that they are mapped for. An exception is handed the POA of the
request, so that it is mapped for the side it came from. -/
def Passage.mapsFor (facing : Bool) : Passage → Bool
  | .request _ _ => !facing
  | .reply _ (.excep _ _) => !facing
  | .reply _ _ => facing

/-- What a call leaves of the registry, unless it was the end of the program. -/
def regAfter {σ α : Type} (reg : σ → Registry) : Outcome Exn α × σ → Option Registry
  | (.ok _, s) => some (reg s)
  | (.raised _, s) => some (reg s)
  | (.fault _, _) => none

/-- The registry after a passage. -/
def after (ev : GenericEvaluator ι) (env : Surroundings) (facing : Bool) :
    Passage → Frame → Option Registry
  | .request operation decoded, s =>
      regAfter Frame.reg ((ev.evaluate ⟨ev.mapper, facing⟩ (.request operation decoded)).run
        (Traffic.start s.table s.reg (.request operation decoded)))
  | .reply operation event, s =>
      regAfter (fun s => s.frame.reg)
        (((ev.replyHandler env facing operation).handle event).run ⟨s, []⟩)

omit [Std.Refl le] [IsTrans Registry le] in
theorem regAfter_le {σ α : Type} (reg : σ → Registry) {P : σ → Prop} {x : Action σ Exn α}
    {Q : α → σ → Prop} {s : σ} {reg' : Registry}
    (h : Evolves (fun s s' => le (reg s) (reg s')) P x Q) (hs : P s)
    (hafter : regAfter reg (x.run s) = some reg') : le (reg s) reg' := by
  have hrun := h s hs
  cases hx : x.run s with
  | mk outcome s' =>
      rw [hx] at hrun hafter
      cases outcome with
      | ok a => exact Option.some.inj hafter ▸ hrun.1
      | raised e => exact Option.some.inj hafter ▸ hrun
      | fault cause => cases hafter

section Replies

variable {operation : String} {result : Nat → Except Exn (Value ObjRef)}
  {outArgs : Except Exn (List (Value ObjRef))} {body : ExceptionBody}

/-- What was decoded takes the place of what was prepared. -/
theorem decodeResponse_walks (operation : String) :
    Evolves (Onward le) (fun s : Frame => I s.reg)
      (ProxyReplyHandler.decodeResponse result outArgs) fun _ s => At I (fun w =>
        ∀ r ∈ resultRefs w.result ++ itemRefs .argIn w.args, ∃ ref,
          (Passage.reply operation (.response result outArgs)).Brings ref ∧ r = .incoming ref)
        s := by
  refine Evolves.bind (Q := fun _ => At I fun w => ∀ r ∈ resultRefs w.result, ∃ ref,
    (Passage.reply operation (.response result outArgs)).Brings ref ∧ r = .incoming ref) ?_
    fun _ => ?_
  · refine Evolves.get fun s hs => ?_
    cases hresult : s.result with
    | none =>
        refine Evolves.pure ?_
        rintro _ rfl
        refine ⟨hs, ?_⟩
        simp only [Frame.values, hresult]
        exact fun r hr => absurd hr List.not_mem_nil
    | some nv =>
        dsimp only
        cases hdecoded : result nv.tc with
        | error e => exact Evolves.raise
        | ok v =>
            refine Evolves.modify ?_
            rintro s rfl
            refine ⟨refl_of le s.reg, hs, fun r hr => ?_⟩
            change r ∈ (v.map Reference.incoming).refs at hr
            rw [Value.refs_map] at hr
            obtain ⟨ref, href, rfl⟩ := List.mem_map.mp hr
            exact ⟨ref, .inl ⟨nv.tc, v, hdecoded, href⟩, rfl⟩
  · refine Evolves.get fun s hs => ?_
    unfold setArguments
    cases houtArgs : outArgs with
    | error e => exact Evolves.raise
    | ok values =>
        dsimp only
        cases hfill : fill .argIn s.args values with
        | error e => exact Evolves.raise
        | ok args =>
            refine Evolves.modify ?_
            rintro s rfl
            refine ⟨refl_of le s.reg, hs.1, ?_⟩
            subst houtArgs
            refine List.forall_mem_append.mpr ⟨hs.2, fun r hr => ?_⟩
            obtain ⟨v, hv, ref, href, rfl⟩ := fill_refs hfill r hr
            exact ⟨ref, .inr ⟨values, rfl, v, hv, href⟩, rfl⟩

theorem responseBody_walks (hI : Stable le I)
    (h : ∀ ref, (Passage.reply operation (.response result outArgs)).Brings ref →
      Clears ev facing le I Good (.incoming ref)) :
    Evolves (Onward le) (fun s : Frame => I s.reg)
      ((ev.replyHandler env facing operation).responseBody result outArgs) fun _ s =>
        At I (fun w => ∀ r ∈ resultRefs w.result ++ itemRefs .argIn w.args, Good r) s := by
  refine (decodeResponse_walks operation).bind fun _ => ?_
  have hdecoded : ∀ v : Values, (∀ r ∈ resultRefs v.result ++ itemRefs .argIn v.args, ∃ ref,
      (Passage.reply operation (.response result outArgs)).Brings ref ∧ r = .incoming ref) →
      ∀ r ∈ resultRefs v.result ++ itemRefs .argIn v.args, Clears ev facing le I Good r := by
    intro v hv r hr
    obtain ⟨ref, href, rfl⟩ := hv r hr
    exact h ref href
  intro start hstart
  obtain ⟨hresult, hargs⟩ := List.forall_mem_append.mp (hdecoded start.values hstart.2)
  have hreply := evaluateReply_walks hI _ operation start.values
    (wantOutfacing_other ev.mapper facing) hresult hargs
  have hrest : ∀ b : Bool, Evolves (Onward le) (At I fun w =>
      ∀ r ∈ resultRefs w.result ++ itemRefs .argIn w.args, Good r) (pure () : EvalM Unit)
      fun _ => At I fun w => ∀ r ∈ resultRefs w.result ++ itemRefs .argIn w.args, Good r :=
    fun _ => Evolves.pure fun _ hs => hs
  exact (hreply.bind hrest) start ⟨hstart.1, rfl⟩

theorem evaluateUser_walks (hI : Stable le I) (id : String)
    (h : ∀ tc v, body.exception tc = .ok v → ∀ ref ∈ v.refs,
      Clears ev (!facing) le I Good (.incoming ref)) :
    Evolves (Onward le) (fun s : Frame => I s.reg)
      ((ev.replyHandler env facing operation).evaluateUser id body.exception) fun _ s =>
        At I (fun w => ∀ r ∈ resultRefs w.encap, Good r) s := by
  refine Evolves.bind (Q := fun _ => At I fun w => w.encap = none)
    (Evolves.modify fun s hs => ⟨refl_of le s.reg, hs, rfl⟩) fun _ => ?_
  refine (evaluateException_walks hI _ operation id body.exception
    (wantOutfacing_arrival ev.mapper facing) h).bind fun _ => ?_
  exact Evolves.pure fun _ hs => hs

/-! The handler does not touch the frame besides. -/

def OnwardReply (le : Registry → Registry → Prop) (s s' : ReplyState) : Prop :=
  le s.frame.reg s'.frame.reg

instance onwardReplyRefl : Std.Refl (OnwardReply le) where
  refl s := refl_of le s.frame.reg

instance onwardReplyTrans : IsTrans ReplyState (OnwardReply le) where
  trans _ _ _ h h' := trans_of le h h'

omit [Std.Refl le] [IsTrans Registry le] in
theorem onFrame_walks {α : Type} {x : EvalM α} {Q : α → Frame → Prop}
    (h : Evolves (Onward le) (fun s : Frame => I s.reg) x Q) :
    Evolves (OnwardReply le) (fun s => I s.frame.reg) (ProxyReplyHandler.onFrame x)
      fun _ _ => True :=
  h.zoom (fun _ hs => hs) (fun _ _ _ hle => hle) fun _ _ _ _ _ _ => trivial

theorem invoke_walks (h : ProxyReplyHandler) (answer : Answer) {P : ReplyState → Prop} :
    Evolves (OnwardReply le) P (h.invoke answer) fun _ _ => True := by
  unfold ProxyReplyHandler.invoke
  split
  · refine Evolves.bind (Q := fun _ _ => True)
      (Evolves.modify fun s _ => ⟨refl_of le s.frame.reg, trivial⟩) fun _ => ?_
    cases h.deliver answer with
    | ok _ => exact Evolves.pure fun _ hs => hs
    | error e => exact Evolves.raise
  · exact Evolves.fail

theorem handle_walks (hI : Stable le I) (event : ReplyEvent)
    (h : ∀ ref, (Passage.reply operation event).Brings ref →
      Clears ev ((Passage.reply operation event).mapsFor facing) le I Good (.incoming ref)) :
    Evolves (OnwardReply le) (fun s => I s.frame.reg)
      ((ev.replyHandler env facing operation).handle event) fun _ _ => True := by
  have hstable : Stable (OnwardReply le) fun s : ReplyState => I s.frame.reg :=
    fun _ _ hle hs => hI _ _ hle hs
  cases event with
  | response result outArgs =>
      refine Evolves.bind (Evolves.tryCatch hstable (onFrame_walks (responseBody_walks hI h))
        (fun _ hs => hs) fun e => invoke_walks _ _) fun _ => ?_
      unfold ProxyReplyHandler.invokeReply
      split
      · exact Evolves.get fun s _ => invoke_walks _ _
      · exact Evolves.pure fun _ hs => hs
  | excep body status =>
      have huser : ∀ id, Evolves (OnwardReply le) (fun s : ReplyState => I s.frame.reg)
          ((ev.replyHandler env facing operation).handleUserException id body status)
          fun _ _ => True := by
        intro id
        refine Evolves.bind (onFrame_walks (@evaluateUser_walks _ _ _ _ _ _ Good _ _ _ _ hI id
          fun tc v hv ref href => h ref ⟨tc, v, hv, href⟩)) fun _ => ?_
        exact Evolves.get fun s _ => invoke_walks _ _
      simp only [ProxyReplyHandler.handle, ProxyReplyHandler.handleExcep]
      cases body.id with
      | none => exact invoke_walks _ _
      | some id =>
          cases status with
          | userException => exact huser id
          | systemException =>
              dsimp only
              unfold ProxyReplyHandler.handleSystemException
              split
              · split
                · exact invoke_walks _ _
                · exact Evolves.fail
              · exact invoke_walks _ _
          | _ => exact Evolves.pure fun _ _ => trivial
  | locationForward fwd status =>
      simp only [ProxyReplyHandler.handle, ProxyReplyHandler.handleLocationForward]
      cases hfwd : fwd with
      | error e => exact Evolves.raise
      | ok fwd =>
          cases fwd with
          | none => exact invoke_walks _ _
          | some ref =>
              cases ref with
              | none => exact invoke_walks _ _
              | some ref =>
                  dsimp only
                  rw [forwardFacing_replyHandler]
                  have hlooked : Evolves (Onward le) (fun s : Frame => I s.reg)
                      (onRegistry (Registry.mappedForNative ev.orb ev.inst ref facing))
                      fun _ _ => True :=
                    (h ref hfwd).looked.zoom (fun _ hs => hs) (fun _ _ _ hle => hle)
                      fun _ _ _ _ _ _ => trivial
                  refine Evolves.bind (onFrame_walks hlooked) fun answer => ?_
                  cases answer with
                  | none => exact invoke_walks _ _
                  | some mapped => exact invoke_walks _ _

end Replies

/-- What a passage does to the registry. -/
theorem after_le (hI : Stable le I) {p : Passage} {s : Frame} {reg' : Registry} (hs : I s.reg)
    (h : ∀ ref, p.Brings ref → Clears ev (p.mapsFor facing) le I Good (.incoming ref))
    (hafter : ev.after env facing p s = some reg') : le s.reg reg' := by
  cases p with
  | request operation decoded =>
      exact regAfter_le Frame.reg (evaluateRequest_walks hI _ operation decoded
        (wantOutfacing_arrival ev.mapper facing) h)
        (s := Traffic.start s.table s.reg (.request operation decoded)) ⟨hs, rfl⟩ hafter
  | reply operation event =>
      have hrun : Evolves (OnwardReply le) (fun s => I s.frame.reg)
          ((ev.replyHandler env facing operation).handle event) fun _ _ => True :=
        handle_walks hI event h
      exact regAfter_le (fun s : ReplyState => s.frame.reg) hrun hs hafter

theorem passed_reply_good (hI : Stable le I) {operation : String} {event : ReplyEvent}
    {s : Frame} (hs : I s.reg)
    (h : ∀ ref, (Passage.reply operation event).Brings ref →
      Clears ev ((Passage.reply operation event).mapsFor facing) le I Good (.incoming ref)) :
    ∀ r ∈ ev.passed env facing (.reply operation event) s, Good r := by
  have hnone : ev.passed env facing (.reply operation event) s = [] →
      ∀ r ∈ ev.passed env facing (.reply operation event) s, Good r := by
    intro hempty r hr
    rw [hempty] at hr
    exact absurd hr List.not_mem_nil
  cases event with
  | response result outArgs =>
      rw [passed_response]
      have hrun : Evolves (Onward le) (fun s : Frame => I s.reg)
          ((ev.replyHandler env facing operation).responseBody result outArgs) fun _ s =>
            At I (fun w => ∀ r ∈ resultRefs w.result ++ itemRefs .argIn w.args, Good r) s :=
        responseBody_walks hI h
      cases hx : ((ev.replyHandler env facing operation).responseBody result outArgs).run s with
      | mk outcome f =>
          cases outcome with
          | ok a => exact (hrun.ok hs hx).2.2
          | raised e => exact fun r hr => absurd hr List.not_mem_nil
          | fault cause => exact fun r hr => absurd hr List.not_mem_nil
  | excep body status =>
      cases hid : body.id with
      | none =>
          refine hnone (@passed_invoke _ _ _ _ _ _ .marshal ?_ rfl s)
          simp only [ProxyReplyHandler.handle, ProxyReplyHandler.handleExcep, hid]
      | some id =>
          cases status with
          | userException =>
              rw [passed_user operation id hid]
              have hrun : Evolves (Onward le) (fun s : Frame => I s.reg)
                  ((ev.replyHandler env facing operation).evaluateUser id body.exception)
                  fun _ s => At I (fun w => ∀ r ∈ resultRefs w.encap, Good r) s :=
                evaluateUser_walks hI id fun tc v hv ref href => h ref ⟨tc, v, hv, href⟩
              cases hx : ((ev.replyHandler env facing operation).evaluateUser id
                  body.exception).run s with
              | mk outcome f =>
                  cases outcome with
                  | ok a => exact (hrun.ok hs hx).2.2
                  | raised e => exact fun r hr => absurd hr List.not_mem_nil
                  | fault cause => exact fun r hr => absurd hr List.not_mem_nil
          | systemException => exact hnone (passed_system operation id hid s)
          | _ =>
              refine hnone ?_
              simp only [passed, ProxyReplyHandler.handle, ProxyReplyHandler.handleExcep, hid]
              rfl
  | locationForward fwd status =>
      cases hfwd : fwd with
      | error e => exact fun r hr => absurd hr List.not_mem_nil
      | ok fwd =>
          subst hfwd
          cases fwd with
          | none => exact hnone (@passed_invoke _ _ _ _ _ _ .marshal rfl rfl s)
          | some ref =>
              cases ref with
              | none =>
                  exact hnone (@passed_invoke _ _ _ _ _ _ (.invokeLocationForward none
                    (status == .locationForwardPerm)) rfl rfl s)
              | some ref =>
                  rw [passed_locationForward]
                  have hlooked := (h ref rfl).looked s.reg hs
                  dsimp only [Passage.mapsFor, Reference.object] at hlooked
                  cases hx : (Registry.mappedForNative ev.orb ev.inst ref facing).run s.reg with
                  | mk outcome reg' =>
                      rw [hx] at hlooked
                      cases outcome with
                      | ok answer =>
                          cases answer with
                          | none => exact fun r hr => absurd hr List.not_mem_nil
                          | some mapped =>
                              intro r hr
                              obtain rfl := List.mem_singleton.mp hr
                              exact hlooked.2 mapped rfl
                      | raised e => exact fun r hr => absurd hr List.not_mem_nil
                      | fault cause => exact fun r hr => absurd hr List.not_mem_nil

/-- What passes is good. -/
theorem passed_good (hI : Stable le I) {p : Passage} {s : Frame} (hs : I s.reg)
    (h : ∀ ref, p.Brings ref → Clears ev (p.mapsFor facing) le I Good (.incoming ref)) :
    ∀ r ∈ ev.passed env facing p s, Good r := by
  cases p with
  | reply operation event => exact passed_reply_good hI hs h
  | request operation decoded =>
      have hrun := evaluateRequest_walks hI ⟨ev.mapper, facing⟩ operation decoded
        (wantOutfacing_arrival ev.mapper facing) h
        (Traffic.start s.table s.reg (.request operation decoded)) ⟨hs, rfl⟩
      unfold passed evaluate
      dsimp only
      cases hx : (ev.evaluateRequest operation ⟨ev.mapper, facing⟩ decoded).run
          (Traffic.start s.table s.reg (.request operation decoded)) with
      | mk outcome s' =>
          rw [hx] at hrun
          cases outcome with
          | ok b =>
              cases b with
              | true => exact hrun.2.2
              | false => exact fun r hr => absurd hr List.not_mem_nil
          | raised e => exact fun r hr => absurd hr List.not_mem_nil
          | fault cause => exact fun r hr => absurd hr List.not_mem_nil

end GenericEvaluator

end Lorica
