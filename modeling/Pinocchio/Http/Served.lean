import Pinocchio.Crow.Routing
import Pinocchio.Http.Router

/-! The rules of the program in the router of the server.

The trie that holds only strings is the trie of the server for the rules of the program, so what is
told of their routes is what the server does, in whatever order it walks its maps.
-/

set_option autoImplicit false

namespace Pinocchio.Http
open Semantics Crow

/-! ## Two tries -/

def Node.lift (node : Node) : Crow.Node where
  ruleIndex := node.ruleIndex
  paramChildrens t := if t = .string then node.stringChild else 0
  children := node.children

def liftFound {D : Type} (found : Nat × List Bytes) : Nat × RoutingParams D :=
  (found.1, { stringParams := found.2 })

section
variable {D : Type} (trie : Trie)

theorem node_lift (idx : Nat) : Crow.Trie.node (trie.map Node.lift) idx = (trie.node idx).lift := by
  unfold Crow.Trie.node Trie.node
  rw [List.getElem?_map]
  cases trie[idx]? with
  | some node => rfl
  | none => simp [Node.lift]

theorem updateFound_lift (found ret : Nat × List Bytes) :
    Crow.Trie.updateFound (liftFound (D := D) found) (liftFound ret) =
      liftFound (Trie.updateFound found ret) := by
  unfold Crow.Trie.updateFound Trie.updateFound liftFound
  simp only []
  split <;> rfl

theorem find_lift (strtod : Strtod D) (fuel : Nat) (url : Bytes) (idx : Nat) (params : List Bytes) :
    Crow.Trie.find asIs strtod (trie.map Node.lift) fuel url idx { stringParams := params } =
      liftFound (trie.find fuel url idx params) := by
  induction fuel generalizing url idx params with
  | zero => rfl
  | succ fuel ih =>
    rw [Crow.Trie.find, Trie.find]
    simp only [node_lift]
    split
    · rfl
    rename_i more
    have read : readParam strtod .string url =
        if url.takeWhile (· != slash) = [] then none
        else some (.string (url.takeWhile (· != slash)), url.dropWhile (· != slash)) := by
      cases url with
      | nil => exact absurd rfl more
      | cons c url => rfl
    refine (congrArg (fun start => List.foldl _ start (trie.node idx).children)
      (?byParam : _ = liftFound (if (trie.node idx).stringChild ≠ 0 ∧ url.takeWhile (· != slash) ≠ [] then
        Trie.updateFound (0, []) (trie.find fuel (url.dropWhile (· != slash))
          (trie.node idx).stringChild (params ++ [url.takeWhile (· != slash)]))
        else (0, [])))).trans ?_
    case byParam =>
      simp only [ParamType.all, List.foldl_cons, List.foldl_nil, Node.lift, reduceCtorEq, if_false,
        if_true, ne_eq, not_true, read]
      by_cases some : (trie.node idx).stringChild = 0
      · simp [some, liftFound]
      · by_cases piece : url.takeWhile (· != slash) = []
        · simp [piece, liftFound]
        · simp only [some, piece, not_false_eq_true, if_true, if_false, and_self,
            RoutingParams.push, ih]
          exact updateFound_lift (0, []) _
    generalize (if (trie.node idx).stringChild ≠ 0 ∧ url.takeWhile (· != slash) ≠ [] then
          Trie.updateFound (0, []) (trie.find fuel (url.dropWhile (· != slash))
            (trie.node idx).stringChild (params ++ [url.takeWhile (· != slash)]))
        else (0, [])) = found
    induction (trie.node idx).children generalizing found with
    | nil => rfl
    | cons kv children next =>
      simp only [List.foldl_cons]
      split
      · rw [ih, updateFound_lift]
        exact next _
      · exact next found

end

/-! ## The trie of the program -/

def addText (trie : Crow.Trie) (rule : Bytes × Nat) : Except AddError Crow.Trie := do
  let trie ← trie.add rule.2 0 0 rule.1
  if rule.1.length > 1 ∧ rule.1.getLast? = some Crow.slash then
    trie.add Crow.ruleSpecialRedirectSlash 0 0 rule.1.dropLast
  else pure trie

section
variable {D : Type}

theorem internalAddRuleObject_eq (router : Router D) (rule : TaggedRule D) :
    router.internalAddRuleObject rule =
      (addText router.trie (rule.rule, router.rules.length)).map
        fun trie => ⟨router.rules ++ [some rule], trie⟩ := by
  unfold addText Router.internalAddRuleObject
  cases router.trie.add router.rules.length 0 0 rule.rule with
  | error error => rfl
  | ok trie =>
    simp only [bind, Except.bind]
    by_cases directory : rule.rule.length > 1 ∧ rule.rule.getLast? = some Crow.slash
    · rw [if_pos directory, if_pos directory]
      cases trie.add Crow.ruleSpecialRedirectSlash 0 0 rule.rule.dropLast with
      | error error => rfl
      | ok trie => rfl
    · rw [if_neg directory, if_neg directory]
      rfl

theorem register_trie (rules : List (TaggedRule D)) {router after : Router D}
    (called : rules.foldlM Router.internalAddRuleObject router = .ok after) :
    ((rules.map TaggedRule.rule).zipIdx router.rules.length).foldlM addText router.trie =
      .ok after.trie := by
  induction rules generalizing router with
  | nil => cases called; rfl
  | cons rule rules ih =>
    rw [List.foldlM_cons, internalAddRuleObject_eq] at called
    rw [List.map_cons, List.zipIdx_cons, List.foldlM_cons]
    cases added : addText router.trie (rule.rule, router.rules.length) with
    | error error =>
      rw [added] at called
      cases called
    | ok trie =>
      rw [added] at called
      have rest := ih called
      rw [List.length_append] at rest
      exact rest

theorem trie_rules :
    (((rules.map Rule.rule).zipIdx firstRule).foldlM addText [{}]).toOption.bind
      (Crow.Trie.optimize asIs) = some (router.map Node.lift) := by
  decide +kernel

def HttpMethod.number : HttpMethod → UInt32
  | .delete => 0
  | .get => 1
  | .head => 2
  | .post => 3
  | .put => 4
  | .connect => 5
  | .options => 6
  | .trace => 7

def maskOf (methods : List HttpMethod) : UInt32 :=
  methods.foldl (fun mask method => mask ||| (1 : UInt32) <<< method.number) 0

abbrev Handlers (D : Type) := Nat → Request → List (Param D) → Option Crow.Response

def served (handlers : Handlers D) : List (TaggedRule D) :=
  [.of (p := (ascii "/").map .symbol) (ascii "/") (by decide) (by decide) (maskOf [.get])
      (some (handlers 2)),
    .of (p := (ascii "/regist/").map .symbol ++ [.hole .string]) (ascii "/regist/<string>")
      (by decide) (by decide) (maskOf [.get]) (some (handlers 3)),
    .of (p := (ascii "/gcm/send").map .symbol) (ascii "/gcm/send") (by decide) (by decide)
      (maskOf [.post]) (some (handlers 4)),
    .of (p := (ascii "/gcm/recv/").map .symbol ++ [.hole .string]) (ascii "/gcm/recv/<string>")
      (by decide) (by decide) (maskOf [.get]) (some (handlers 5)),
    .of (p := (ascii "/gcm/publish/ServerApiKey/").map .symbol ++ [.hole .string])
      (ascii "/gcm/publish/ServerApiKey/<string>") (by decide) (by decide) (maskOf [.get])
      (some (handlers 6))]

theorem rule_strings : ∀ rule ∈ rules,
    (Pattern.kinds ((Crow.Trie.patternOf 0 rule.rule).getD [])).length ≤ maxParameters ∧
      ∀ k ∈ Pattern.kinds ((Crow.Trie.patternOf 0 rule.rule).getD []), k = .string := by
  decide

theorem served_member (handlers : Handlers D) {i : Nat} {rule : TaggedRule D}
    (place : (served handlers)[i]? = some rule) : ∃ r, rules[i]? = some r ∧
      rule.rule = r.rule ∧ rule.methods = maskOf r.methods ∧
      rule.handler = some (handlers (2 + i)) := by
  have inside : i < 5 := (List.getElem?_eq_some_iff.mp place).1
  interval_cases i <;> (cases place; exact ⟨_, rfl, rfl, rfl, rfl⟩)

theorem mask_iff {r : Rule} (member : r ∈ rules) (method : HttpMethod) :
    maskOf r.methods &&& ((1 : UInt32) <<< method.number) = 0 ↔ method ∉ r.methods := by
  have all : ∀ r ∈ rules, r.methods = [.get] ∨ r.methods = [.post] := by decide
  rcases all r member with same | same <;> (rw [same]; cases method <;> decide)

theorem values_of_strings {values : List (Param D)}
    (strings : ∀ value ∈ values, value.argType = .string) :
    values = (Crow.Trie.pushAll {} values).stringParams.map .string := by
  have same := ofType_pushAll_empty values .string
  rw [List.filter_eq_self.mpr fun value member => by simpa using strings value member] at same
  exact same.symm

theorem served_nodup (handlers : Handlers D) : ((table (served handlers)).map Prod.fst).Nodup := by
  have bare : (table (served handlers)).map Prod.fst =
      (table (served fun _ _ _ => none : List (TaggedRule Unit))).map Prod.fst := rfl
  rw [bare]
  decide

theorem served_text {handlers : Handlers D} {rule : TaggedRule D} (member : rule ∈ served handlers) :
    ∃ r ∈ rules, rule.rule = r.rule ∧ rule.handler.isSome = true := by
  obtain ⟨i, place⟩ := List.mem_iff_getElem?.mp member
  obtain ⟨r, there, text, _, handler⟩ := served_member handlers place
  exact ⟨r, List.mem_of_getElem? there, text, by rw [handler]; rfl⟩

theorem served_few {handlers : Handlers D} {rule : TaggedRule D} (member : rule ∈ served handlers) :
    rule.pattern.kinds.length ≤ maxParameters ∧ ∀ k ∈ rule.pattern.kinds, k = .string := by
  obtain ⟨r, there, text, _⟩ := served_text member
  rw [TaggedRule.pattern, text]
  exact rule_strings r there

theorem served_starts (handlers : Handlers D) (walk : Walk) :
    ∃ router, start walk (served handlers) = .ok router := by
  have rooted : ∀ rule ∈ served handlers, rule.rooted = true := by
    intro rule member
    obtain ⟨r, there, text, _⟩ := served_text member
    have all : ∀ r ∈ rules, r.rule.head?.any (· ≠ Crow.Trie.opening) = true := by decide
    rw [TaggedRule.rooted, text]
    exact all r there
  have given : ∀ rule ∈ served handlers, rule.handler.isSome = true := by
    intro rule member
    obtain ⟨_, _, _, handler⟩ := served_text member
    exact handler
  obtain ⟨_, _, _, _, started⟩ :=
    (((start_cases walk (served handlers)).2 (served_nodup handlers)).2 rooted).2 given
  exact ⟨_, started⟩

theorem served_texts (handlers : Handlers D) :
    (served handlers).map TaggedRule.rule = rules.map Rule.rule := rfl

theorem served_best (handlers : Handlers D) (strtod : Strtod D) (url : Bytes) :
    Best (fun n found => ∃ values, Candidate strtod (served handlers) url n values ∧
        found = Crow.Trie.pushAll {} values)
      (liftFound (router.find router.length url 0 [])) := by
  rcases register_holds (served handlers) with ⟨twice, _⟩ | ⟨_, trie, called, holds⟩
  · exact absurd (served_nodup handlers) twice
  have texts := register_trie _ called
  rw [served_texts] at texts
  have texts : ((rules.map Rule.rule).zipIdx firstRule).foldlM addText [{}] = .ok trie := texts
  have optimized := trie_rules
  rw [texts] at optimized
  obtain ⟨merged, optimized', merges⟩ := holds.optimize asIs
  have same : merged = router.map Node.lift := Option.some.inj (optimized'.symm.trans optimized)
  subst same
  have found := holds.find_best merges asIs strtod url
  rw [List.length_map] at found
  rw [← find_lift router strtod]
  exact found

def respond (handlers : Handlers D) (req : Request) : Routing → Crow.Response
  | .invalid | .notFound => { code := 404 }
  | .redirect => Router.redirect req
  | .handler n params => (handlers n req (params.map .string)).getD { code := 500 }

theorem answer_served (handlers : Handlers D) (strtod : Strtod D) (method : HttpMethod)
    (req : Request) (method_eq : req.method = method.number) {found : Nat × List Bytes}
    {values : List (Param D)} (candidate : Candidate strtod (served handlers) req.url found.1 values)
    (pushed : (liftFound found).2 = Crow.Trie.pushAll {} values)
    (other : found.1 ≠ Crow.ruleSpecialRedirectSlash) :
    answer (served handlers) req found.1 values = respond handlers req
      (match rules[found.1 - firstRule]? with
        | none => .invalid
        | some rule => if method ∈ rule.methods then .handler found.1 found.2 else .notFound) := by
  obtain ⟨p, member, full⟩ := candidate
  rcases number_of_mem_table member with redirect | ⟨i, rule, place, number, rfl⟩
  · exact absurd redirect other
  obtain ⟨r, there, text, methods, handler⟩ := served_member handlers place
  rw [answer, if_neg other, number, firstRule, Nat.add_sub_cancel_left, place, there]
  simp only []
  rw [methods, method_eq]
  by_cases allowed : method ∈ r.methods
  · rw [if_neg fun zero => (mask_iff (List.mem_of_getElem? there) method).mp zero allowed,
      if_pos allowed, handler]
    have strings : values = found.2.map .string := by
      have types := Crow.fill_argTypes full
      have all : ∀ value ∈ values, value.argType = .string := by
        intro value member
        have type := List.mem_map_of_mem (f := Param.argType) member
        rw [types] at type
        obtain ⟨k, kind, same⟩ := List.mem_map.mp type
        rw [← same, (served_few (List.mem_of_getElem? place)).2 k kind]
        rfl
      have back := values_of_strings all
      rw [← pushed] at back
      exact back
    rw [strings]
    rfl
  · rw [if_pos ((mask_iff (List.mem_of_getElem? there) method).mpr allowed), if_neg allowed]
    rfl

/-- The server starts with the rules of the program, and answers every request by the route of its
URL, whatever the order in which it walks its maps. -/
theorem route_served (handlers : Handlers D) (walk : Walk) :
    ∃ router, start walk (served handlers) = .ok router ∧
      ∀ (walk' : Walk) (strtod : Strtod D) (method : HttpMethod) (word raw body : Bytes)
        (headers : CiMap), rawUrl method word = some raw →
        router.handle walk' strtod ⟨method.number, raw, urlOf raw, headers, body⟩ =
          .ok (respond handlers ⟨method.number, raw, urlOf raw, headers, body⟩
            (route method word)) := by
  obtain ⟨server, started⟩ := served_starts handlers walk
  refine ⟨server, started, fun walk' strtod method word raw body headers read => ?_⟩
  have best := served_best handlers strtod (urlOf raw)
  generalize requested : Request.mk method.number raw (urlOf raw) headers body = req
  have url : req.url = urlOf raw := by rw [← requested]
  rw [← url] at best
  unfold route
  rw [read]
  simp only [← url]
  generalize router.find router.length req.url 0 [] = found at best ⊢
  split
  · rename_i none
    refine handle_none started walk' strtod req fun n values candidate => ?_
    exact (best.least n _ ⟨values, candidate, rfl⟩
      (Nat.one_le_iff_ne_zero.mp candidate.pos)).1 none
  rename_i some
  obtain ⟨values, candidate, pushed⟩ := best.chosen some
  have least : ∀ m others, Candidate strtod (served handlers) req.url m others → found.1 ≤ m :=
    fun m others candidate =>
      (best.least m _ ⟨others, candidate, rfl⟩ (Nat.one_le_iff_ne_zero.mp candidate.pos)).2
  rw [handle_least started (fun rule member => (served_few member).1) walk' strtod req candidate
    least]
  split
  · rename_i redirect
    exact congrArg Except.ok (if_pos redirect)
  · rename_i other
    have method_eq : req.method = method.number := by rw [← requested]
    exact congrArg Except.ok
      (answer_served handlers strtod method req method_eq candidate pushed other)

end

end Pinocchio.Http
