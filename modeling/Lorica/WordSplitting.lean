import Lorica.ConfigRuns
import Lorica.MapperChain

/-!
The four settings that are lists. Each is split at its blanks by a loop of its
own, and the loops differ in what they do with an empty piece: two skip it, one
stops there, and one takes it for an entry like the others.
-/

namespace Lorica

/-- The type id a call registers. -/
def SetupCall.typeId? : SetupCall → Option String
  | .addNullMapperType typeId => some typeId
  | _ => none

namespace Config

open Machine

/-! ## The loop over the type ids -/

section Loop

/-- The loop of `Proxy::configure`. -/
def nullIdLoop (neIds : Text) (start : Nat) : List Text :=
  match h : findFrom ' ' neIds start with
  | none => [neIds.drop start]
  | some space => (neIds.drop start).take (space - start) :: nullIdLoop neIds (space + 1)
termination_by neIds.length - start
decreasing_by
  have hbounds := findFrom_bounds h
  omega

theorem nullIdLoop_eq (neIds : Text) (start : Nat) :
    nullIdLoop neIds start = (neIds.drop start).splitOn ' ' := by
  fun_induction nullIdLoop neIds start with
  | case1 start h => exact (splitOn_drop_of_none h).symm
  | case2 start space h ih => rw [ih, splitOn_drop_of_some h]

end Loop

/-! ## What is done with the pieces -/

section Definitions

variable (hashPjw : Text → UInt64) (defs : BuildDefs)

/-- The calls of `Proxy::configure` that make a null mapper. -/
def nullMapperCalls (c : Config) : List SetupCall :=
  let neIds := c.getValue hashPjw "Null_Eval_Type_ID".toList []
  if neIds ≠ [] then (nullIdLoop neIds 0).map fun id => .addNullMapperType (String.ofList id)
  else if c.getBoolValue hashPjw "Null_Evaluator_Any".toList false then
    [.createDefaultNullMapper]
  else []

/-- Every setting is split into its words: the getters append one argument for
each, `init_endpoints` goes by each as an endpoint, and each is registered as a
type id. -/
structure SplitAlike (c : Config) : Prop where
  orb : ∀ ws, Worded ' ' (c.getValue hashPjw "ORB_Option".toList []) ws →
    ∀ world args c', c.orbArgs = [] →
      c.getOrbOptions hashPjw defs world = .ok (some args, c') →
      ∃ eps, args.added = [defs.loricaExeName, "-ORBUseSharedProfile".toList, "0".toList] ++ ws ++
        listenArgs eps ++ debugArgs c.debugLevel
  ifr : ∀ ws, Worded ' ' (c.getValue hashPjw "IFR_CmdOption".toList []) ws →
    ∀ debug, c.ifrArgs = [] →
      (c.getIfrOptions hashPjw defs debug).1.added = c.ifrLeadingArgs hashPjw defs ++ ws
  endpoints : ∀ world doExtern ws,
    Worded ' ' (c.addresses hashPjw world doExtern).1 ws →
      c.initEndpoints hashPjw world doExtern =
        addEndpoints world doExtern ws (c.addresses hashPjw world doExtern).2
  nullIds : ∀ ws, Worded ' ' (c.getValue hashPjw "Null_Eval_Type_ID".toList []) ws →
    (c.nullMapperCalls hashPjw).filterMap SetupCall.typeId? = ws.map String.ofList

/-- All words stand in front of the first empty piece. -/
def Gapless (epsStr : Text) : Prop :=
  ∀ piece ∈ (epsStr.splitOn ' ').dropWhile (· ≠ []), piece = []

instance (epsStr : Text) : Decidable (Gapless epsStr) :=
  inferInstanceAs (Decidable (∀ piece ∈ _, _))

end Definitions

/-! ## The endpoints -/

section Endpoints

variable {hashPjw : Text → UInt64} {world : Surroundings} {c c' : Config}

theorem words_eq_append (epsStr : Text) :
    words ' ' epsStr = endpointWords epsStr ++
      ((epsStr.splitOn ' ').dropWhile (· ≠ [])).filter (· ≠ []) := by
  have hfront : (endpointWords epsStr).filter (· ≠ []) = endpointWords epsStr := by
    rw [List.filter_eq_self]
    intro w hw
    unfold endpointWords at hw
    exact List.mem_takeWhile_imp (p := fun w => decide (w ≠ [])) hw
  calc words ' ' epsStr
      = (endpointWords epsStr ++ (epsStr.splitOn ' ').dropWhile (· ≠ [])).filter (· ≠ []) := by
        unfold words endpointWords
        rw [List.takeWhile_append_dropWhile]
    _ = _ := by rw [List.filter_append, hfront]

theorem Gapless.words_eq {epsStr : Text} (h : Gapless epsStr) :
    words ' ' epsStr = endpointWords epsStr := by
  have hnone : ((epsStr.splitOn ' ').dropWhile (· ≠ [])).filter (· ≠ []) = [] := by
    rw [List.filter_eq_nil_iff]
    intro piece hpiece
    simp [h piece hpiece]
  rw [words_eq_append, hnone, List.append_nil]

/-- A list that is one word has no gap. -/
theorem gapless_of_endpointWords {text : Text} (h : endpointWords text = [text]) :
    Gapless text := by
  have hmem : text ∈ endpointWords text := h ▸ List.mem_singleton_self text
  unfold endpointWords at hmem
  have hblank := notMem_of_mem_splitOn ((List.takeWhile_sublist _).mem hmem)
  unfold endpointWords at h
  unfold Gapless
  rw [List.splitOn_eq_singleton hblank] at h ⊢
  intro piece hpiece
  have hsplit := List.takeWhile_append_dropWhile (p := fun w => decide (w ≠ [])) (l := [text])
  rw [h, List.append_right_eq_self] at hsplit
  rw [hsplit] at hpiece
  cases hpiece

theorem exists_more_of_not_gapless {epsStr : Text} (h : ¬ Gapless epsStr) :
    ∃ more, more ≠ [] ∧ words ' ' epsStr = endpointWords epsStr ++ more := by
  refine ⟨_, ?_, words_eq_append epsStr⟩
  intro hnone
  rw [List.filter_eq_nil_iff] at hnone
  exact h fun piece hpiece => by simpa using hnone piece hpiece

theorem addEndpoints_append (doExtern : Bool) (front more : List Text) :
    addEndpoints world doExtern (front ++ more) c = (do
      let (ok, c) ← addEndpoints world doExtern front c
      if ok then addEndpoints world doExtern more c else return (false, c)) := by
  induction front generalizing c with
  | nil => rfl
  | cons epStr front ih =>
      simp only [List.cons_append, addEndpoints, bind_assoc]
      refine bind_congr fun parsed => ?_
      rcases parsed with ⟨_ | ep, asked⟩
      · rfl
      · exact ih

/-- A word behind the gap is not missed exactly where the code never comes to
the gap. -/
theorem addEndpoints_words_iff (doExtern : Bool) (epsStr : Text) (c : Config) :
    (∀ world, addEndpoints world doExtern (endpointWords epsStr) c =
        addEndpoints world doExtern (words ' ' epsStr) c) ↔
      Gapless epsStr ∨ ¬ ∀ w ∈ endpointWords epsStr, Endpoint.Readable w := by
  constructor
  · intro h
    by_contra hneither
    obtain ⟨hgap, hread⟩ := not_or.mp hneither
    obtain ⟨more, hmore, hwords⟩ := exists_more_of_not_gapless hgap
    let found : Surroundings := { sampleWorld with ip := fun _ _ _ => some [] }
    obtain ⟨⟨ok, c'⟩, hfront⟩ :=
      (@addEndpoints_returns found doExtern (endpointWords epsStr) c).ok fun ⟨word, _, h⟩ =>
        Endpoint.not_wordMissing (fun _ _ _ => rfl) word h
    obtain rfl : ok = true := (addEndpoints_spec hfront).1.mpr (not_not.mp hread)
    have hrest := h found
    rw [hwords, addEndpoints_append, hfront] at hrest
    -- the words behind the gap would add endpoints
    obtain ⟨-, new, hfills, -, hlength⟩ := addEndpoints_spec hrest.symm
    have hnone : new = [] := List.self_eq_append_right.mp hfills.endpoints
    have hzero := hlength rfl
    rw [hnone] at hzero
    exact hmore (List.length_eq_zero_iff.mp hzero.symm)
  · rintro (hgapless | hrefused) world
    · rw [hgapless.words_eq]
    · rw [words_eq_append, addEndpoints_append]
      cases hfront : addEndpoints world doExtern (endpointWords epsStr) c with
      | error cause => rfl
      | ok result =>
          obtain ⟨_ | _, c'⟩ := result
          · rfl
          · exact absurd ((addEndpoints_spec hfront).1.mp rfl) hrefused

end Endpoints

/-! ## The four settings -/

section Settings

variable {hashPjw : Text → UInt64} {defs : BuildDefs} {world : Surroundings}
  {c c' : Config}

theorem fillEndpoints_keeps {ok : Bool}
    (h : c.fillEndpoints hashPjw world = .ok (ok, c')) :
    c'.orbArgs = c.orbArgs ∧ c'.debugLevel = c.debugLevel := by
  rcases eq_or_ne c.endpoints [] with hc | hc
  · obtain ⟨-, new, hfills, -⟩ := fillEndpoints_first hc h
    exact ⟨hfills.orbArgs, hfills.debugLevel⟩
  · unfold fillEndpoints at h
    rw [if_pos hc] at h
    cases h
    exact ⟨rfl, rfl⟩

/-- The first vector for the ORB begins with the words of `ORB_Option`. -/
theorem getOrbOptions_first {args : ArgVector} (hc : c.orbArgs = [])
    (h : c.getOrbOptions hashPjw defs world = .ok (some args, c')) :
    ∃ eps, args.added =
      c.leadingArgs hashPjw defs ++ listenArgs eps ++ debugArgs c.debugLevel := by
  unfold getOrbOptions at h
  rw [if_neg (not_not.mpr hc)] at h
  obtain ⟨⟨ok, c₁⟩, hfill, heq⟩ := ok_of_bind h
  obtain ⟨hargs, hdebug⟩ := fillEndpoints_keeps hfill
  cases ok with
  | false => cases heq
  | true =>
      cases heq
      exact ⟨c₁.endpoints, by rw [getOrbOptionsCopy, hargs, hdebug]⟩

theorem nullMapperCalls_typeIds :
    (c.nullMapperCalls hashPjw).filterMap SetupCall.typeId? =
      if c.getValue hashPjw "Null_Eval_Type_ID".toList [] = [] then []
      else ((c.getValue hashPjw "Null_Eval_Type_ID".toList []).splitOn ' ').map String.ofList := by
  unfold nullMapperCalls
  rcases eq_or_ne (c.getValue hashPjw "Null_Eval_Type_ID".toList []) [] with hnil | hne
  · rw [if_pos hnil, if_neg (not_not.mpr hnil)]
    split_ifs <;> rfl
  · rw [if_pos hne, if_neg hne, List.filterMap_map, nullIdLoop_eq]
    exact congrFun List.filterMap_eq_map _

/-- The words are all the pieces where no piece is empty. -/
theorem splitOn_eq_words_iff (text : Text) :
    text.splitOn ' ' = Machine.words ' ' text ↔ [] ∉ text.splitOn ' ' := by
  unfold Machine.words
  rw [eq_comm, List.filter_eq_self]
  constructor
  · exact fun h hmem => by simpa using h [] hmem
  · intro h piece hpiece
    simpa using fun heq : piece = [] => h (heq ▸ hpiece)

/-- For every configuration and every placing of the blanks, the arguments of
the ORB and of the interface repository are the words; the endpoints are those
of the words unless a word stands behind an empty piece and everything in front
of that piece is accepted; the type ids are the words unless two blanks meet or
one stands at an end. -/
theorem splitAlike_iff (hashPjw : Text → UInt64) (defs : BuildDefs) (c : Config) :
    SplitAlike hashPjw defs c ↔
      (∀ doExtern, Gapless (c.getValue hashPjw (addressToken doExtern) []) ∨
        ¬ ListParses hashPjw c doExtern) ∧
      (c.getValue hashPjw "Null_Eval_Type_ID".toList [] ≠ [] →
        [] ∉ (c.getValue hashPjw "Null_Eval_Type_ID".toList []).splitOn ' ') := by
  constructor
  · intro h
    refine ⟨fun doExtern => ?_, fun hne => ?_⟩
    · rcases eq_or_ne (c.getValue hashPjw (addressToken doExtern) []) [] with hnil | hne
      · rw [hnil]
        exact .inl (by decide)
      · refine (addEndpoints_words_iff doExtern _ c).mp fun world => ?_
        have haddresses : c.addresses hashPjw world doExtern =
            (c.getValue hashPjw (addressToken doExtern) [], c) := by
          simp [addresses, hne]
        have hwords := h.endpoints world doExtern _ (worded_iff.mpr rfl)
        unfold initEndpoints at hwords
        rwa [endpointLoop_eq, haddresses] at hwords
    · have hids := h.nullIds _ (worded_iff.mpr rfl)
      rw [nullMapperCalls_typeIds, if_neg hne] at hids
      have hpieces := List.map_injective_iff.mpr (fun _ _ => String.ofList_injective) hids
      exact (splitOn_eq_words_iff _).mp hpieces
  · rintro ⟨hlists, hids⟩
    refine ⟨?_, ?_, ?_, ?_⟩
    · rintro ws hws world args c' hc h
      obtain ⟨eps, hargs⟩ := getOrbOptions_first hc h
      rw [leadingArgs, optionWords_eq, ← worded_iff.mp hws] at hargs
      exact ⟨eps, hargs⟩
    · rintro ws hws debug hc
      unfold getIfrOptions
      rw [if_neg (not_not.mpr hc), worded_iff.mp hws, ← optionWords_eq]
      rfl
    · rintro world doExtern ws hws
      obtain rfl := worded_iff.mp hws
      unfold initEndpoints
      rw [endpointLoop_eq, List.drop_zero]
      refine (addEndpoints_words_iff doExtern _ _).mpr ?_ world
      rcases addresses_cases hashPjw world c doExtern with
        ⟨-, heq⟩ | ⟨-, text, asked, heq, hone, -⟩
      · rw [heq]
        exact hlists doExtern
      · rw [heq]
        exact .inl (gapless_of_endpointWords hone)
    · rintro ws hws
      rw [nullMapperCalls_typeIds, worded_iff.mp hws]
      split_ifs with hnil
      · rw [hnil]
        rfl
      · rw [(splitOn_eq_words_iff _).mpr (hids hnil)]

/-- Two blanks in a row: of the type ids one is empty, and of the endpoints the
second one is missed. -/
theorem not_splitAlike_two_blanks :
    ¬ SplitAlike FileConfig.acePjw sampleDefs
        (sampleConfig "Null_Eval_Type_ID IDL:A:1.0  IDL:B:1.0") ∧
      ¬ SplitAlike FileConfig.acePjw sampleDefs
        (sampleConfig "External_Address a:1  b:2") := by
  constructor
  · intro h
    have hids := h.nullIds ["IDL:A:1.0".toList, "IDL:B:1.0".toList]
      (worded_iff.mpr (by decide +kernel))
    rw [nullMapperCalls_typeIds] at hids
    exact absurd hids (by decide +kernel)
  · intro h
    have hadded := h.endpoints sampleWorld true ["a:1".toList, "b:2".toList]
      (worded_iff.mpr (by decide +kernel))
    have hcount := congrArg (Except.map fun result => result.2.endpoints.length) hadded
    exact absurd hcount (by decide +kernel)

end Settings

end Config

end Lorica
