import Mathlib.Data.List.Count
import Mathlib.Data.List.Perm.Basic
import Mathlib.Logic.Function.Basic
import Mathlib.Tactic.IntervalCases
import Pinocchio.Crow.TrieAdding

/-! From the parameters of a rule to the arguments of its handler.

The types of the parameters are packed into one number, a digit in base six for each of them, and the
arguments of a handler are unpacked from it. A search leaves the values sorted by their types, so an
argument is found by its type and its place among those of its type.
-/

set_option autoImplicit false

namespace Pinocchio.Crow
open Semantics Trie

/-- What a handler takes: `int64_t`, `uint64_t`, `double` and `std::string`. -/
inductive ArgType where
  | int | uint | double | string
  deriving DecidableEq

/-! ## Tags -/

def closing : UInt8 := 62

def tagAt (text : Bytes) : Option UInt64 :=
  if (ascii "<int>").isPrefixOf text then some 1
  else if (ascii "<uint>").isPrefixOf text then some 2
  else if (ascii "<float>").isPrefixOf text || (ascii "<double>").isPrefixOf text then some 3
  else if (ascii "<str>").isPrefixOf text || (ascii "<string>").isPrefixOf text then some 4
  else if (ascii "<path>").isPrefixOf text then some 5
  else none

def findClosingTag (text : Bytes) : Option Nat := text.findIdx? (· = closing)

/-- The tag of a rule, where `skip` counts the characters before the closing `>`. There is none if
no type begins at a `<`, and then the program does not compile. -/
def getParameterTag : Nat → Bytes → Option UInt64
  | _, [] => some 0
  | skip + 1, _ :: url => getParameterTag skip url
  | 0, c :: url =>
    if c = opening then
      match tagAt (c :: url), findClosingTag (c :: url) with
      | some digit, some p => (getParameterTag (p - 1) url).map fun tag => tag * 6 + digit
      | _, _ => none
    else getParameterTag 0 url

def singleTagToType : Nat → Option ArgType
  | 1 => some .int
  | 2 => some .uint
  | 3 => some .double
  | 4 | 5 => some .string
  | _ => none

/-- The arguments for a tag; a digit zero in front of others has no type. -/
def arguments (tag : Nat) : Option (List ArgType) :=
  if tag = 0 then some []
  else do
    let subarguments ← arguments (tag / 6)
    let type ← singleTagToType (tag % 6)
    return type :: subarguments
termination_by tag
decreasing_by omega

def ParamType.number : ParamType → Nat
  | .int => 1
  | .uint => 2
  | .double => 3
  | .string => 4
  | .path => 5

def ParamType.argType : ParamType → ArgType
  | .int => .int
  | .uint => .uint
  | .double => .double
  | .string | .path => .string

/-- The tag of these types, before any overflow. -/
def tagOf (types : List ParamType) : Nat := types.foldr (fun t tag => tag * 6 + t.number) 0

theorem tagAt_eq (text : Bytes) :
    tagAt text = (paramTraits.find? fun x => x.2.isPrefixOf text).map
      fun x => UInt64.ofNat x.1.number := by
  unfold tagAt paramTraits
  simp only [List.find?_cons, List.find?_nil]
  generalize (ascii "<int>").isPrefixOf text = int
  generalize (ascii "<uint>").isPrefixOf text = uint
  generalize (ascii "<float>").isPrefixOf text = float
  generalize (ascii "<double>").isPrefixOf text = double
  generalize (ascii "<str>").isPrefixOf text = str
  generalize (ascii "<string>").isPrefixOf text = string
  generalize (ascii "<path>").isPrefixOf text = path
  cases int with | true => rfl | false
  cases uint with | true => rfl | false
  cases float with | true => rfl | false
  cases double with | true => rfl | false
  cases str with | true => rfl | false
  cases string with | true => rfl | false
  cases path with
  | true => rfl
  | false => rfl

theorem name_ends : ∀ x ∈ paramTraits, ∃ name,
    x.2 = name ++ [closing] ∧ closing ∉ name ∧ 2 ≤ name.length := by
  simp only [paramTraits, List.forall_mem_cons]
  exact ⟨⟨ascii "<int", by decide⟩, ⟨ascii "<uint", by decide⟩, ⟨ascii "<float", by decide⟩,
    ⟨ascii "<double", by decide⟩, ⟨ascii "<str", by decide⟩, ⟨ascii "<string", by decide⟩,
    ⟨ascii "<path", by decide⟩, fun _ none => absurd none List.not_mem_nil⟩

theorem findClosingTag_eq {text : Bytes} {x : ParamType × Bytes} (member : x ∈ paramTraits)
    (front : x.2 <+: text) : findClosingTag text = some (x.2.length - 1) := by
  obtain ⟨name, whole, free, _⟩ := name_ends x member
  obtain ⟨rest, rfl⟩ := front
  unfold findClosingTag
  rw [whole, List.append_assoc, List.findIdx?_append]
  have skipped : name.findIdx? (· = closing) = none := by
    simp only [List.findIdx?_eq_none_iff, decide_eq_false_iff_not]
    rintro c member rfl
    exact free member
  simp [skipped, List.findIdx?_cons]

theorem getParameterTag_skip {url : Bytes} {skip : Nat} {c : UInt8} {rest : Bytes}
    (drop : url.drop skip = c :: rest) (plain : c ≠ opening) :
    getParameterTag skip url = getParameterTag (skip + 1) url := by
  induction url generalizing skip with
  | nil => simp at drop
  | cons d url ih =>
    cases skip with
    | zero =>
      simp only [List.drop_zero, List.cons.injEq] at drop
      rw [getParameterTag, getParameterTag, if_neg (drop.1 ▸ plain)]
    | succ skip =>
      rw [getParameterTag, getParameterTag]
      exact ih drop

theorem getParameterTag_eq (url : Bytes) (skip : Nat) :
    getParameterTag skip url = (patternOf skip url).map fun p => UInt64.ofNat (tagOf p.kinds) := by
  induction url generalizing skip with
  | nil => rfl
  | cons c url ih =>
    cases skip with
    | succ skip =>
      rw [getParameterTag, patternOf]
      exact ih skip
    | zero =>
      rw [getParameterTag, patternOf, tagAt_eq]
      split
      · cases found : paramTraits.find? fun x => x.2.isPrefixOf (c :: url) with
        | none => rfl
        | some x =>
          have member := List.mem_of_find?_eq_some found
          have front : x.2 <+: c :: url := by
            simpa using List.find?_some found
          obtain ⟨name, whole, _, long⟩ := name_ends x member
          simp only [Option.map_some, findClosingTag_eq member front]
          have skipped : getParameterTag (x.2.length - 1 - 1) url =
              getParameterTag (x.2.length - 1) url := by
            obtain ⟨rest, same⟩ := front
            cases name with
            | nil => simp at long
            | cons d name =>
              simp only [whole, List.cons_append, List.append_assoc, List.cons.injEq] at same
              have size : x.2.length - 1 - 1 = name.length := by simp [whole]
              have next : name.length + 1 = x.2.length - 1 := by simp [whole]
              rw [size, ← next]
              have drop : url.drop name.length = closing :: rest := by simp [← same.2]
              exact getParameterTag_skip drop (by decide)
          rw [skipped, ih]
          cases patternOf (x.2.length - 1) url with
          | none => rfl
          | some p => simp [Pattern.kinds, tagOf]
      · rw [ih]
        cases patternOf 0 url with
        | none => rfl
        | some p => rfl

/-! ## The arguments -/

theorem tagOf_bound (types : List ParamType) : tagOf types < 6 ^ types.length := by
  induction types with
  | nil => decide
  | cons t types ih =>
    have digit : t.number ≤ 5 := by cases t <;> decide
    change tagOf types * 6 + t.number < 6 ^ (types.length + 1)
    rw [Nat.pow_succ]
    omega

theorem arguments_tagOf (types : List ParamType) :
    arguments (tagOf types) = some (types.map ParamType.argType) := by
  induction types with
  | nil => rw [tagOf, List.foldr_nil, arguments, if_pos rfl]; rfl
  | cons t types ih =>
    have digit : 1 ≤ t.number ∧ t.number ≤ 5 := by cases t <;> decide
    have step : tagOf (t :: types) = tagOf types * 6 + t.number := rfl
    have above : (tagOf types * 6 + t.number) / 6 = tagOf types := by omega
    have below : (tagOf types * 6 + t.number) % 6 = t.number := by omega
    rw [step, arguments, if_neg (by omega), above, below, ih]
    cases t <;> rfl

def maxParameters : Nat := 24

theorem tagOf_room {types : List ParamType} (few : types.length ≤ maxParameters) :
    tagOf types < 2 ^ 64 := calc
  tagOf types < 6 ^ types.length := tagOf_bound _
  _ ≤ 6 ^ maxParameters := Nat.pow_le_pow_right (by decide) few
  _ < 2 ^ 64 := by decide

theorem arguments_getParameterTag {url : Bytes} {p : RulePattern} (pattern : patternOf 0 url = some p)
    (few : p.kinds.length ≤ maxParameters) :
    (getParameterTag 0 url).bind (fun tag => arguments tag.toNat) =
      some (p.kinds.map ParamType.argType) := by
  have room := tagOf_room few
  rw [getParameterTag_eq, pattern]
  simp only [Option.map_some, Option.bind_some]
  rw [UInt64.toNat_ofNat', Nat.mod_eq_of_lt room, arguments_tagOf]

/-! ## The call of a handler -/

section
variable {D : Type}

def Param.argType : Param D → ArgType
  | .int _ => .int
  | .uint _ => .uint
  | .double _ => .double
  | .string _ => .string

def RoutingParams.ofType (params : RoutingParams D) : ArgType → List (Param D)
  | .int => params.intParams.map .int
  | .uint => params.uintParams.map .uint
  | .double => params.doubleParams.map .double
  | .string => params.stringParams.map .string

/-- An argument by its type and its place, which has to be inside of the vector. -/
def RoutingParams.get (params : RoutingParams D) (arg : ArgType × Nat) : Option (Param D) :=
  (params.ofType arg.1)[arg.2]?

/-- The types with their places; `counts` are the arguments of each type so far. -/
def callPairs : (ArgType → Nat) → List ArgType → List (ArgType × Nat)
  | _, [] => []
  | counts, type :: args =>
    (type, counts type) :: callPairs (Function.update counts type (counts type + 1)) args

def call (params : RoutingParams D) (args : List ArgType) : Option (List (Param D)) :=
  (callPairs (fun _ => 0) args).mapM params.get

theorem ofType_push (params : RoutingParams D) (value : Param D) (type : ArgType) :
    (params.push value).ofType type =
      params.ofType type ++ if value.argType = type then [value] else [] := by
  cases value <;> cases type <;> simp [RoutingParams.push, RoutingParams.ofType, Param.argType]

theorem ofType_pushAll (params : RoutingParams D) (values : List (Param D)) (type : ArgType) :
    (pushAll params values).ofType type =
      params.ofType type ++ values.filter (·.argType = type) := by
  induction values generalizing params with
  | nil => simp [pushAll]
  | cons value values ih =>
    have rest : (pushAll (params.push value) values).ofType type = _ := ih _
    rw [pushAll, List.foldl_cons, ← pushAll, rest, ofType_push, List.append_assoc]
    by_cases same : value.argType = type
    · simp [same]
    · simp [same]

theorem ofType_pushAll_empty (values : List (Param D)) (type : ArgType) :
    (pushAll {} values).ofType type = values.filter (·.argType = type) := by
  rw [ofType_pushAll]
  cases type <;> rfl

theorem call_rest (done rest : List (Param D)) (counts : ArgType → Nat)
    (places : ∀ type, counts type = (done.filter (·.argType = type)).length) :
    (callPairs counts (rest.map Param.argType)).mapM (pushAll {} (done ++ rest)).get =
      some rest := by
  induction rest generalizing done counts with
  | nil => rfl
  | cons value rest ih =>
    have here : (pushAll {} (done ++ value :: rest)).get (value.argType, counts value.argType) =
        some value := by
      rw [RoutingParams.get, ofType_pushAll_empty, List.filter_append, places]
      simp
    have next := ih (done ++ [value])
      (Function.update counts value.argType (counts value.argType + 1)) fun type => by
        by_cases same : type = value.argType
        · subst same
          simp [places]
        · simp [places, same, Ne.symm same]
    rw [List.append_assoc, List.singleton_append] at next
    simp only [List.map_cons, callPairs, List.mapM_cons, here, next, Option.bind_eq_bind,
      Option.bind_some]
    rfl

theorem call_pushAll (values : List (Param D)) :
    call (pushAll {} values) (values.map Param.argType) = some values :=
  call_rest [] values _ fun _ => rfl

theorem readParam_argType {strtod : Strtod D} {t : ParamType} {text left : Bytes} {value : Param D}
    (taken : readParam strtod t text = some (value, left)) : value.argType = t.argType := by
  cases text with
  | nil => cases taken
  | cons c text =>
    cases t with
    | int | uint | double =>
      simp only [readParam] at taken
      split at taken
      · obtain ⟨got, _, same⟩ := Option.map_eq_some_iff.mp taken
        cases same
        rfl
      · cases taken
    | string =>
      simp only [readParam] at taken
      split at taken
      · cases taken
      · cases taken
        rfl
    | path => cases taken; rfl

theorem fill_argTypes {strtod : Strtod D} {p : RulePattern} {url : Bytes} {values : List (Param D)}
    (full : Pattern.fill (readParam strtod) p url = some values) :
    values.map Param.argType = p.kinds.map ParamType.argType := by
  have each : List.Forall₂ (fun (value : Param D) (t : ParamType) => value.argType = t.argType)
      values p.kinds :=
    Pattern.fill_kinds full fun t text value left taken => readParam_argType taken
  have same := List.forall₂_map_left_iff.mpr (List.forall₂_map_right_iff.mpr each)
  rwa [List.forall₂_eq_eq_eq] at same

/-- From a rule to the call of its handler: a URL that fills the pattern of a rule gives its handler
what it filled the pattern with, each value as an argument of its type and in its place. -/
theorem handler_receives {strtod : Strtod D} {rule url : Bytes} {p : RulePattern}
    {values : List (Param D)} (pattern : patternOf 0 rule = some p)
    (few : p.kinds.length ≤ maxParameters)
    (full : Pattern.fill (readParam strtod) p url = some values) :
    ∃ tag args, getParameterTag 0 rule = some tag ∧ arguments tag.toNat = some args ∧
      args = p.kinds.map ParamType.argType ∧ call (pushAll {} values) args = some values := by
  obtain ⟨tag, tagged, unpacked⟩ :=
    Option.bind_eq_some_iff.mp (arguments_getParameterTag pattern few)
  refine ⟨tag, _, tagged, unpacked, rfl, ?_⟩
  rw [← fill_argTypes full]
  exact call_pushAll values

def noDoubles : Strtod Unit := ⟨fun _ => none, fun _ _ _ taken => by cases taken⟩

def itemPattern : RulePattern :=
  (ascii "/item/").map .symbol ++ [.hole .int, .symbol slash, .hole .string]

theorem handler_receives_item : ∃ tag args,
    getParameterTag 0 (ascii "/item/<int>/<string>") = some tag ∧
      arguments tag.toNat = some args ∧ args = [.int, .string] ∧
      call (pushAll {} [.int (-7), .string (ascii "ab")]) args =
        some [(.int (-7) : Param Unit), .string (ascii "ab")] :=
  have full : Pattern.fill (readParam noDoubles) itemPattern (ascii "/item/-7/ab") =
      some [.int (-7), .string (ascii "ab")] := by decide
  handler_receives (p := itemPattern) (by decide) (by decide) full

/-! ## Handlers that are checked when the program runs -/

/-- Whether a handler of the second tag is let in for a rule of the first. -/
def isParameterTagCompatible (a b : Nat) : Bool :=
  if a = 0 then b = 0
  else if b = 0 then a = 0
  else
    let sa := if a % 6 = 5 then 4 else a % 6
    let sb := if a % 6 = 5 then 4 else a % 6
    if sa ≠ sb then false else isParameterTagCompatible (a / 6) (b / 6)
termination_by a
decreasing_by omega

def ArgType.number : ArgType → Nat
  | .int => 1
  | .uint => 2
  | .double => 3
  | .string => 4

/-- The tag of the arguments is an `int` that the compiler computes; where it overflows the program
does not compile. -/
def computeParameterTag : List ArgType → Option Nat
  | [] => some 0
  | type :: args => do
    let subValue ← computeParameterTag args
    let value := subValue * 6 + type.number
    if value < 2 ^ 31 then some value else none

/-- Whether a dynamic rule takes a handler; an invalid rule and a handler that is not compatible are
refused alike. -/
def acceptsHandler (rule : Bytes) (args : List ArgType) : Bool :=
  match getParameterTag 0 rule, computeParameterTag args with
  | some tag, some argsTag => isParameterTagCompatible tag.toNat argsTag
  | _, _ => false

def maxArguments : Nat := 12

theorem ArgType.number_pos (type : ArgType) : 1 ≤ type.number := by cases type <;> decide

theorem ArgType.number_le (type : ArgType) : type.number ≤ 4 := by cases type <;> decide

/-- The tag of the arguments, before any overflow. -/
def argsTag (args : List ArgType) : Nat := args.foldr (fun type tag => tag * 6 + type.number) 0

theorem argsTag_cons (type : ArgType) (args : List ArgType) :
    argsTag (type :: args) = argsTag args * 6 + type.number := rfl

theorem argsTag_bound (args : List ArgType) : 5 * argsTag args + 4 ≤ 4 * 6 ^ args.length := by
  induction args with
  | nil => decide
  | cons type args ih =>
    have digit := type.number_le
    rw [argsTag_cons, List.length_cons, Nat.pow_succ]
    omega

theorem argsTag_least (args : List ArgType) : 6 ^ args.length ≤ 5 * argsTag args + 1 := by
  induction args with
  | nil => decide
  | cons type args ih =>
    have digit := type.number_pos
    rw [argsTag_cons, List.length_cons, Nat.pow_succ]
    omega

theorem argsTag_room (args : List ArgType) :
    argsTag args < 2 ^ 31 ↔ args.length ≤ maxArguments := by
  constructor
  · intro room
    by_contra many
    have longer : 6 ^ (maxArguments + 1) ≤ 6 ^ args.length :=
      Nat.pow_le_pow_right (by decide) (Nat.lt_of_not_le many)
    have thirteen : 6 ^ (maxArguments + 1) = 13060694016 := by decide
    have least := argsTag_least args
    omega
  · intro few
    have shorter : 6 ^ args.length ≤ 6 ^ maxArguments := Nat.pow_le_pow_right (by decide) few
    have twelve : 6 ^ maxArguments = 2176782336 := by decide
    have bound := argsTag_bound args
    omega

theorem computeParameterTag_eq (args : List ArgType) :
    computeParameterTag args = if args.length ≤ maxArguments then some (argsTag args) else none := by
  induction args with
  | nil => rfl
  | cons type args ih =>
    rw [computeParameterTag, ih]
    by_cases few : args.length ≤ maxArguments
    · simp only [if_pos few, bind, Option.bind, ← argsTag_cons, argsTag_room]
    · have more : ¬(type :: args).length ≤ maxArguments := by
        rw [List.length_cons]
        omega
      rw [if_neg few, if_neg more]
      rfl

/-- Both digits are taken from the first tag, so only the numbers of digits are compared. -/
theorem isParameterTagCompatible_iff (types : List ParamType) (args : List ArgType) :
    isParameterTagCompatible (tagOf types) (argsTag args) = true ↔ types.length = args.length := by
  induction types generalizing args with
  | nil =>
    rw [isParameterTagCompatible]
    cases args with
    | nil => simp [tagOf, argsTag]
    | cons type args =>
      have digit := type.number_pos
      simp [tagOf, argsTag]
      omega
  | cons t types ih =>
    have digit : 1 ≤ t.number ∧ t.number ≤ 5 := by cases t <;> decide
    have step : tagOf (t :: types) = tagOf types * 6 + t.number := rfl
    have above : (tagOf types * 6 + t.number) / 6 = tagOf types := by omega
    rw [isParameterTagCompatible, step, if_neg (by omega), above]
    cases args with
    | nil =>
      simp only [argsTag, List.foldr_nil, if_true, decide_eq_true_eq, List.length_nil,
        List.length_cons]
      omega
    | cons type args =>
      have least := type.number_pos
      have largest := type.number_le
      have above' : (argsTag args * 6 + type.number) / 6 = argsTag args := by omega
      rw [argsTag_cons, if_neg (by omega), above']
      simp only [ne_eq, not_true, if_false, List.length_cons, Nat.add_right_cancel_iff]
      exact ih args

theorem acceptsHandler_iff {rule : Bytes} {p : RulePattern} (pattern : patternOf 0 rule = some p)
    (few : p.kinds.length ≤ maxParameters) (args : List ArgType) :
    acceptsHandler rule args = true ↔ args.length = p.kinds.length ∧ args.length ≤ maxArguments := by
  have room := tagOf_room few
  rw [acceptsHandler, getParameterTag_eq, pattern, computeParameterTag_eq]
  by_cases compiles : args.length ≤ maxArguments
  · simp only [Option.map_some, if_pos compiles]
    rw [UInt64.toNat_ofNat', Nat.mod_eq_of_lt room, isParameterTagCompatible_iff]
    exact ⟨fun same => ⟨same.symm, compiles⟩, fun accepted => accepted.1.symm⟩
  · simp [compiles]

theorem mapM_cons_isSome {X Y : Type} (f : X → Option Y) (x : X) (xs : List X) :
    ((x :: xs).mapM f).isSome = true ↔ (f x).isSome = true ∧ (xs.mapM f).isSome = true := by
  rw [List.mapM_cons]
  cases f x with
  | none => simp
  | some y => cases xs.mapM f <;> simp

theorem mapM_get_isSome (params : RoutingParams D) (args : List ArgType) (counts : ArgType → Nat)
    (inside : ∀ type, counts type ≤ (params.ofType type).length) :
    ((callPairs counts args).mapM params.get).isSome = true ↔
      ∀ type, counts type + args.count type ≤ (params.ofType type).length := by
  induction args generalizing counts with
  | nil => simpa [callPairs] using inside
  | cons type args ih =>
    have first : (params.get (type, counts type)).isSome = true ↔
        counts type < (params.ofType type).length := by
      simp [RoutingParams.get]
    rw [callPairs, mapM_cons_isSome, first]
    by_cases before : counts type < (params.ofType type).length
    · rw [ih]
      · simp only [before, true_and]
        refine forall_congr' fun other => ?_
        by_cases same : other = type
        · subst same
          rw [Function.update_self, List.count_cons_self, Nat.add_assoc, Nat.add_comm 1]
        · rw [Function.update_of_ne same, List.count_cons_of_ne (Ne.symm same)]
      · intro other
        by_cases same : other = type
        · subst same
          rw [Function.update_self]
          exact before
        · rw [Function.update_of_ne same]
          exact inside other
    · simp only [before, false_and, false_iff, not_forall]
      exact ⟨type, by rw [List.count_cons_self]; omega⟩

theorem call_isSome (values : List (Param D)) (args : List ArgType) :
    (call (pushAll {} values) args).isSome = true ↔
      ∀ type, args.count type ≤ (values.map Param.argType).count type := by
  rw [call, mapM_get_isSome _ _ _ fun _ => Nat.zero_le _]
  refine forall_congr' fun type => ?_
  rw [ofType_pushAll_empty, Nat.zero_add, List.count_eq_length_filter (l := values.map _),
    List.filter_map, List.length_map]
  rfl

theorem argType_of_get {params : RoutingParams D} {type : ArgType} {n : Nat} {value : Param D}
    (got : params.get (type, n) = some value) : value.argType = type := by
  have member : value ∈ params.ofType type := List.mem_of_getElem? got
  cases type <;> (obtain ⟨_, _, rfl⟩ := List.mem_map.mp member; rfl)

theorem argTypes_of_call {params : RoutingParams D} {args : List ArgType} {counts : ArgType → Nat}
    {values : List (Param D)} (called : (callPairs counts args).mapM params.get = some values) :
    values.map Param.argType = args := by
  induction args generalizing counts values with
  | nil => cases called; rfl
  | cons type args ih =>
    rw [callPairs, List.mapM_cons] at called
    obtain ⟨value, got, called⟩ := Option.bind_eq_some_iff.mp called
    obtain ⟨others, rest, same⟩ := Option.bind_eq_some_iff.mp called
    cases same
    rw [List.map_cons, argType_of_get got, ih rest]

theorem call_eq_values (values : List (Param D)) (args : List ArgType) :
    call (pushAll {} values) args = some values ↔ args = values.map Param.argType := by
  constructor
  · exact fun called => (argTypes_of_call called).symm
  · rintro rfl
    exact call_pushAll values

/-- What is let in reads no argument out of range if and only if it takes the right types, and then
possibly in another order. -/
theorem call_isSome_iff_perm {values : List (Param D)} {args : List ArgType}
    (same : values.length = args.length) :
    (call (pushAll {} values) args).isSome = true ↔ args.Perm (values.map Param.argType) := by
  rw [call_isSome, ← List.subperm_iff_count]
  constructor
  · exact fun sub => sub.perm_of_length_le (by simp [same])
  · exact List.Perm.subperm

/-- A dynamic rule takes a handler if and only if it has as many arguments as the rule has
parameters, and no more than compile. When it is called for a URL, no argument is read out of range if
and only if its types are those of the parameters in some order, and it gets the values in their order
if and only if its types are. -/
theorem acceptsHandler_call {strtod : Strtod D} {rule : Bytes} {p : RulePattern}
    (pattern : patternOf 0 rule = some p) (few : p.kinds.length ≤ maxParameters)
    (args : List ArgType) :
    (acceptsHandler rule args = true ↔
      args.length = p.kinds.length ∧ args.length ≤ maxArguments) ∧
    ∀ url values, Pattern.fill (readParam strtod) p url = some values →
      acceptsHandler rule args = true →
      ((call (pushAll {} values) args).isSome = true ↔
        args.Perm (p.kinds.map ParamType.argType)) ∧
      (call (pushAll {} values) args = some values ↔ args = p.kinds.map ParamType.argType) := by
  have accepts := acceptsHandler_iff pattern few args
  refine ⟨accepts, fun url values full accepted => ?_⟩
  have types := fill_argTypes full
  have length : values.length = args.length := by
    rw [(accepts.mp accepted).1]
    simpa using congrArg List.length types
  rw [call_isSome_iff_perm length, call_eq_values, types]
  exact ⟨Iff.rfl, Iff.rfl⟩

/-- A handler of one string is let in for a rule of one number, and its argument is not there. -/
theorem acceptsHandler_call_item :
    (acceptsHandler (ascii "/item/<int>") [.string] = true ↔ 1 = 1 ∧ 1 ≤ 12) ∧
    ∀ url values, Pattern.fill (readParam noDoubles)
        ((ascii "/item/").map .symbol ++ [.hole .int]) url = some values →
      acceptsHandler (ascii "/item/<int>") [.string] = true →
      ((call (pushAll {} values) [.string]).isSome = true ↔ [ArgType.string].Perm [.int]) ∧
      (call (pushAll {} values) [.string] = some values ↔ [ArgType.string] = [.int]) :=
  acceptsHandler_call (p := (ascii "/item/").map .symbol ++ [.hole .int]) (by decide) (by decide)
    [.string]

end

end Pinocchio.Crow
