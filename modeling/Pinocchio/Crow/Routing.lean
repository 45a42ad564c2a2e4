import Mathlib.Data.List.Find
import Mathlib.Data.List.Nodup
import Pinocchio.Crow.Arguments

/-! The router.

Rules are numbered from two on, and the number one stands for all the directories that are asked for
without their slash. A router that was started answers a URL by the least number whose pattern it
fills.
-/

set_option autoImplicit false

namespace Pinocchio.Crow
open Semantics Trie

/-! ## Requests and responses -/

abbrev CiMap := List (Bytes × Bytes)

def upcase (c : UInt8) : UInt8 := if 97 ≤ c && c ≤ 122 then c - 32 else c

def iequals (l r : Bytes) : Bool := l.map upcase = r.map upcase

def getHeaderValue (headers : CiMap) (key : Bytes) : Bytes :=
  ((headers.find? fun kv => iequals kv.1 key).map (·.2)).getD []

/-- The method is its number in the parser, which knows some that `HTTPMethod` does not. -/
structure Request where
  method : UInt32
  rawUrl : Bytes
  url : Bytes
  headers : CiMap
  body : Bytes

structure Response where
  code : Nat := 200
  headers : CiMap := []
  body : Bytes := []
  deriving DecidableEq

/-! ## Rules -/

/-- A rule whose handler takes the arguments for its tag. The handler may throw. -/
structure TaggedRule (D : Type) where
  rule : Bytes
  name : Bytes := []
  args : List ArgType
  tagged : ((getParameterTag 0 rule).bind fun tag => arguments tag.toNat) = some args
  methods : UInt32 := (1 : UInt32) <<< 1
  handler : Option (Request → List (Param D) → Option Response)

inductive RouteError where
  | corrupted
  | noRule
  | badArgument
  deriving DecidableEq

inductive StartError where
  | add (error : AddError)
  | header
  | endless
  | noHandler (text : Bytes)
  deriving DecidableEq

/-- The two slots in front are empty. -/
structure Router (D : Type) where
  rules : List (Option (TaggedRule D)) := [none, none]
  trie : Trie := [{}]

def ruleSpecialRedirectSlash : Nat := 1

section
variable {D : Type}

def TaggedRule.missing (rule : TaggedRule D) : Bytes :=
  let name := if rule.name = [] then [] else rule.name ++ ascii ": "
  name ++ ascii "no handler for url " ++ rule.rule

def TaggedRule.validate (rule : TaggedRule D) : Except StartError Unit :=
  if rule.handler.isSome then .ok () else .error (.noHandler rule.missing)

/-- Exceptions become 500s, and so does a handler that is missing. -/
def TaggedRule.handle (rule : TaggedRule D) (req : Request) (params : RoutingParams D) :
    Except RouteError Response :=
  match call params rule.args with
  | none => .error .badArgument
  | some values => .ok ((rule.handler.bind fun f => f req values).getD { code := 500 })

namespace Router

def internalAddRuleObject (router : Router D) (rule : TaggedRule D) : Except AddError (Router D) := do
  let trie ← router.trie.add router.rules.length 0 0 rule.rule
  let trie ←
    if rule.rule.length > 1 ∧ rule.rule.getLast? = some slash then
      trie.add ruleSpecialRedirectSlash 0 0 rule.rule.dropLast
    else pure trie
  return ⟨router.rules ++ [some rule], trie⟩

def validate (walk : Walk) (router : Router D) : Except StartError (Router D) :=
  if (router.trie.node 0).isSimpleNode then
    match router.trie.optimize walk with
    | none => .error .endless
    | some trie => do
      (router.rules.filterMap id).forM TaggedRule.validate
      return { router with trie }
  else .error .header

def redirect (req : Request) : Response :=
  let host := getHeaderValue req.headers (ascii "Host")
  let location :=
    if host = [] then req.url ++ [slash] else ascii "http://" ++ host ++ req.url ++ [slash]
  { code := 301, headers := [(ascii "Location", location)] }

def handle (walk : Walk) (strtod : Strtod D) (router : Router D) (req : Request) :
    Except RouteError Response :=
  let found := router.trie.find walk strtod router.trie.length req.url 0 {}
  if found.1 = 0 then .ok { code := 404 }
  else if found.1 ≥ router.rules.length then .error .corrupted
  else if found.1 = ruleSpecialRedirectSlash then .ok (redirect req)
  else
    match router.rules[found.1]?.join with
    | none => .error .noRule
    | some rule =>
      if rule.methods &&& ((1 : UInt32) <<< req.method) = 0 then .ok { code := 404 }
      else rule.handle req found.2

end Router

def start (walk : Walk) (rules : List (TaggedRule D)) : Except StartError (Router D) :=
  match rules.foldlM Router.internalAddRuleObject {} with
  | .error error => .error (.add error)
  | .ok router => router.validate walk

/-! ## The table of a router -/

def TaggedRule.pattern (rule : TaggedRule D) : RulePattern := (patternOf 0 rule.rule).getD []

/-- The patterns of a rule with their numbers: a directory is also known without its slash. -/
def TaggedRule.entries (rule : TaggedRule D) (n : Nat) : List (RulePattern × Nat) :=
  (rule.pattern, n) ::
    if rule.rule.length > 1 ∧ rule.rule.getLast? = some slash then
      [(rule.pattern.dropLast, ruleSpecialRedirectSlash)]
    else []

def table (rules : List (TaggedRule D)) : List (RulePattern × Nat) :=
  (rules.zipIdx 2).flatMap fun rule => rule.1.entries rule.2

theorem TaggedRule.patternOf_eq (rule : TaggedRule D) :
    patternOf 0 rule.rule = some rule.pattern := by
  have tagged := rule.tagged
  rw [getParameterTag_eq] at tagged
  unfold pattern
  cases found : patternOf 0 rule.rule with
  | none => simp [found] at tagged
  | some p => rfl

theorem front_concat_slash {x : ParamType × Bytes} (member : x ∈ paramTraits) (text : Bytes) :
    x.2.isPrefixOf (text ++ [slash]) = x.2.isPrefixOf text := by
  obtain ⟨name, whole, _, _⟩ := name_ends x member
  rw [Bool.eq_iff_iff, List.isPrefixOf_iff_prefix, List.isPrefixOf_iff_prefix,
    List.prefix_concat_iff, whole]
  constructor
  · rintro (same | front)
    · exact absurd (List.append_inj' same rfl).2 (by decide)
    · exact front
  · exact Or.inr

theorem patternOf_concat_slash (url : Bytes) {skip : Nat} (inside : skip ≤ url.length) :
    patternOf skip (url ++ [slash]) = (patternOf skip url).map (· ++ [.symbol slash]) := by
  induction url generalizing skip with
  | nil =>
    obtain rfl : skip = 0 := by simpa using inside
    rfl
  | cons c url ih =>
    cases skip with
    | succ skip =>
      rw [List.cons_append, patternOf, patternOf]
      exact ih (by simpa using inside)
    | zero =>
      rw [List.cons_append, patternOf, patternOf]
      split
      · have same : (paramTraits.find? fun x => x.2.isPrefixOf (c :: (url ++ [slash]))) =
            paramTraits.find? fun x => x.2.isPrefixOf (c :: url) :=
          List.find?_congr fun x member => front_concat_slash member (c :: url)
        rw [same]
        cases found : paramTraits.find? fun x => x.2.isPrefixOf (c :: url) with
        | none => rfl
        | some x =>
          have front : x.2 <+: c :: url := by simpa using List.find?_some found
          have fits : x.2.length - 1 ≤ url.length := by
            have short := front.length_le
            rw [List.length_cons] at short
            omega
          simp only [ih fits, Option.map_map]
          rfl
      · simp only [ih (Nat.zero_le _), Option.map_map]
        rfl

theorem TaggedRule.patternOf_dropLast (rule : TaggedRule D)
    (directory : rule.rule.getLast? = some slash) :
    patternOf 0 rule.rule.dropLast = some rule.pattern.dropLast := by
  have whole := List.dropLast_append_getLast? slash directory
  have pattern := rule.patternOf_eq
  rw [← whole, patternOf_concat_slash _ (Nat.zero_le _)] at pattern
  obtain ⟨p, before, same⟩ := Option.map_eq_some_iff.mp pattern
  rw [before, ← same, List.dropLast_concat]

/-! ## Registration -/

/-- A trie that holds the patterns of a table, and nothing off the ways to them. -/
def Holds (trie : Trie) (es : List (RulePattern × Nat)) : Prop :=
  ∃ labels, Labelled trie labels ∧ (∀ p ∈ labels, p = [] ∨ ∃ e ∈ es, p <+: e.1) ∧
    ∀ p n, HasRule trie labels p n ↔ (p, n) ∈ es

theorem holds_empty : Holds [{}] [] := by
  have bare (i : Nat) : Trie.node [{}] i = {} := by
    cases i with
    | zero => rfl
    | succ i => simp [Trie.node]
  have noEdge (i k : Nat) (a : Piece UInt8 ParamType) : ¬Edge [{}] i a k := by
    cases a with
    | hole t =>
      rintro ⟨same, some⟩
      rw [bare] at same
      exact some same.symm
    | symbol c =>
      rw [Edge, bare]
      exact List.not_mem_nil
  have only {k : Nat} {p : RulePattern} (place : ([[]] : List RulePattern)[k]? = some p) : p = [] :=
    List.mem_singleton.mp (List.mem_of_getElem? place)
  refine ⟨[[]], ⟨rfl, List.nodup_singleton _, rfl, ?_, ?_, ?_, ?_, ?_⟩, ?_, ?_⟩
  · intro i k p a _
    exact ⟨fun edge => absurd edge (noEdge i k a), fun place => by simpa using only place⟩
  · intro i k p a _ place
    simpa using only place
  · intro k p a place
    simpa using only place
  · intro i kv member
    rw [bare] at member
    cases member
  · intro i
    rw [bare]
    exact List.Pairwise.nil
  · exact fun p member => Or.inl (List.mem_singleton.mp member)
  · intro p n
    constructor
    · rintro ⟨k, _, rule, some⟩
      rw [bare] at rule
      exact absurd rule.symm some
    · intro member
      cases member

theorem Holds.add {trie : Trie} {es : List (RulePattern × Nat)} (holds : Holds trie es) {url : Bytes}
    {p : RulePattern} (pattern : patternOf 0 url = some p) {n : Nat} (given : n ≠ 0) :
    (p ∈ es.map Prod.fst ∧ trie.add n 0 0 url = .error .exists) ∨
      p ∉ es.map Prod.fst ∧ ∃ after, trie.add n 0 0 url = .ok after ∧
        Holds after (es ++ [(p, n)]) := by
  obtain ⟨labels, labelled, ways, rules⟩ := holds
  have known : (∃ r, HasRule trie labels p r) ↔ p ∈ es.map Prod.fst := by
    simp [rules]
  have adds := add_adds given url labelled labelled.root pattern
  rw [List.nil_append] at adds
  rcases adds with ⟨refused, taken⟩ | ⟨free, after, labels', called, labelled', ways', rules'⟩
  · exact Or.inl ⟨known.mp taken, refused⟩
  refine Or.inr ⟨fun taken => free (known.mpr taken), after, called, labels', labelled', ?_, ?_⟩
  · intro q member
    rcases ways' q member with old | way
    · refine (ways q old).imp_right ?_
      rintro ⟨e, member, way⟩
      exact ⟨e, List.mem_append_left _ member, way⟩
    · exact Or.inr ⟨(p, n), by simp, way⟩
  · intro q r
    rw [rules', rules]
    simp

theorem internalAddRuleObject_holds {router : Router D} {es : List (RulePattern × Nat)}
    (holds : Holds router.trie es) (nodup : (es.map Prod.fst).Nodup) (some : router.rules ≠ [])
    (rule : TaggedRule D) :
    (¬((es ++ rule.entries router.rules.length).map Prod.fst).Nodup ∧
        router.internalAddRuleObject rule = .error .exists) ∨
      ((es ++ rule.entries router.rules.length).map Prod.fst).Nodup ∧
        ∃ trie, router.internalAddRuleObject rule = .ok ⟨router.rules ++ [.some rule], trie⟩ ∧
          Holds trie (es ++ rule.entries router.rules.length) := by
  have given : router.rules.length ≠ 0 := fun none => some (List.length_eq_zero_iff.mp none)
  have grown (p : RulePattern) (es : List (RulePattern × Nat)) (n : Nat) :
      ((es ++ [(p, n)]).map Prod.fst).Nodup ↔ (es.map Prod.fst).Nodup ∧ p ∉ es.map Prod.fst := by
    rw [List.map_append, List.map_singleton, ← List.concat_eq_append, List.nodup_concat, and_comm]
  unfold Router.internalAddRuleObject TaggedRule.entries
  rcases holds.add rule.patternOf_eq given with ⟨taken, refused⟩ | ⟨free, trie, called, holds'⟩
  · left
    rw [refused]
    refine ⟨fun nodup => ?_, rfl⟩
    rw [List.map_append, List.map_cons] at nodup
    exact (List.nodup_append.mp nodup).2.2 _ taken _ List.mem_cons_self rfl
  have nodup' := (grown rule.pattern es router.rules.length).mpr ⟨nodup, free⟩
  rw [called]
  simp only [bind, Except.bind]
  by_cases directory : rule.rule.length > 1 ∧ rule.rule.getLast? = Option.some slash
  · have whole : es ++ [(rule.pattern, router.rules.length),
        (rule.pattern.dropLast, ruleSpecialRedirectSlash)] =
        es ++ [(rule.pattern, router.rules.length)] ++
          [(rule.pattern.dropLast, ruleSpecialRedirectSlash)] := by simp
    rw [if_pos directory, if_pos directory, whole, grown]
    rcases holds'.add (n := ruleSpecialRedirectSlash) (rule.patternOf_dropLast directory.2)
      Nat.one_ne_zero with ⟨taken, refused⟩ | ⟨free', trie', called', holds''⟩
    · left
      rw [refused]
      exact ⟨fun both => both.2 taken, rfl⟩
    · right
      rw [called']
      exact ⟨⟨nodup', free'⟩, trie', rfl, holds''⟩
  · right
    rw [if_neg directory, if_neg directory]
    exact ⟨nodup', trie, rfl, holds'⟩

theorem table_concat (rules : List (TaggedRule D)) (rule : TaggedRule D) :
    table (rules ++ [rule]) = table rules ++ rule.entries (2 + rules.length) := by
  rw [table, table, List.zipIdx_append, List.flatMap_append]
  simp

theorem register_holds (rules : List (TaggedRule D)) :
    (¬((table rules).map Prod.fst).Nodup ∧
        rules.foldlM Router.internalAddRuleObject {} = .error .exists) ∨
      ((table rules).map Prod.fst).Nodup ∧
        ∃ trie, rules.foldlM Router.internalAddRuleObject {} =
            .ok ⟨none :: none :: rules.map some, trie⟩ ∧ Holds trie (table rules) := by
  induction rules using List.reverseRecOn with
  | nil => exact Or.inr ⟨List.nodup_nil, [{}], rfl, holds_empty⟩
  | append_singleton rules rule ih =>
    rw [table_concat, List.foldlM_append]
    rcases ih with ⟨twice, refused⟩ | ⟨nodup, trie, called, holds⟩
    · left
      rw [refused]
      refine ⟨fun nodup => twice ?_, rfl⟩
      rw [List.map_append] at nodup
      exact (List.nodup_append.mp nodup).1
    · rw [called]
      let router : Router D := ⟨none :: none :: rules.map some, trie⟩
      have holds : Holds router.trie (table rules) := holds
      have step := internalAddRuleObject_holds holds nodup (List.cons_ne_nil _ _) rule
      have number : (none :: none :: rules.map some).length = 2 + rules.length := by
        simp
        omega
      simp only [router, number] at step
      rcases step with ⟨twice, refused⟩ | ⟨nodup', trie', called', holds'⟩
      · left
        refine ⟨twice, ?_⟩
        simp only [bind, Except.bind, List.foldlM_cons, refused]
      · right
        refine ⟨nodup', trie', ?_, holds'⟩
        simp only [bind, Except.bind, List.foldlM_cons, called', List.foldlM_nil]
        simp [pure, Except.pure]

/-! ## The start -/

theorem Holds.header {trie : Trie} {es : List (RulePattern × Nat)} (holds : Holds trie es) :
    (trie.node 0).isSimpleNode = true ↔ ∀ e ∈ es, ∃ c rest, e.1 = .symbol c :: rest := by
  obtain ⟨labels, labelled, ways, rules⟩ := holds
  rw [isSimpleNode_iff]
  constructor
  · rintro ⟨bare, noParam⟩ ⟨p, n⟩ member
    obtain ⟨k, place, rule, some⟩ := (rules p n).mpr member
    cases p with
    | nil =>
      obtain rfl := labelled.place_unique place labelled.root
      exact absurd (rule.symm.trans bare) some
    | cons a rest =>
      cases a with
      | symbol c => exact ⟨c, rest, rfl⟩
      | hole t =>
        have whole : [Piece.hole t] ++ rest ∈ labels := List.mem_of_getElem? place
        have way := labelled.prefix_mem whole
        obtain ⟨j, there⟩ := List.mem_iff_getElem?.mp way
        obtain ⟨rfl, some⟩ := (labelled.edges 0 j [] (.hole t) labelled.root).mpr there
        exact absurd (noParam t) some
  · intro symbols
    constructor
    · by_contra some
      have member := (rules [] _).mp ⟨0, labelled.root, rfl, some⟩
      obtain ⟨c, rest, same⟩ := symbols _ member
      cases same
    · intro t
      by_contra some
      have way := (labelled.edges 0 _ [] (.hole t) labelled.root).mp ⟨rfl, some⟩
      rcases ways _ (List.mem_of_getElem? way) with none | ⟨e, member, rest, same⟩
      · cases none
      · obtain ⟨c, rest, other⟩ := symbols e member
        rw [other] at same
        cases same

theorem patternOf_head {url : Bytes} {p : RulePattern} (pattern : patternOf 0 url = some p) :
    (∃ c rest, p = .symbol c :: rest) ↔ url.head?.any (· ≠ opening) = true := by
  cases url with
  | nil =>
    cases pattern
    simp
  | cons c url =>
    rw [patternOf] at pattern
    split at pattern
    · rename_i tag
      split at pattern
      · obtain ⟨rest, _, rfl⟩ := Option.map_eq_some_iff.mp pattern
        simp [tag]
      · cases pattern
    · rename_i plain
      obtain ⟨rest, _, rfl⟩ := Option.map_eq_some_iff.mp pattern
      simp [plain]

/-- Whether a rule begins with a character of its own. -/
def TaggedRule.rooted (rule : TaggedRule D) : Bool := rule.rule.head?.any (· ≠ opening)

theorem TaggedRule.entries_rooted (rule : TaggedRule D) (n : Nat) :
    (∀ e ∈ rule.entries n, ∃ c rest, e.1 = .symbol c :: rest) ↔ rule.rooted = true := by
  have own := patternOf_head rule.patternOf_eq
  unfold entries
  split
  · rename_i directory
    have short := patternOf_head (rule.patternOf_dropLast directory.2)
    have same : rule.rule.dropLast.head? = rule.rule.head? := by
      obtain ⟨long, _⟩ := directory
      rcases whole : rule.rule with _ | ⟨c, _ | ⟨d, rest⟩⟩
      · simp [whole] at long
      · simp [whole] at long
      · rfl
    rw [same] at short
    simp only [List.forall_mem_cons, own, short]
    exact ⟨fun both => both.1, fun rooted => ⟨rooted, rooted, fun _ none => by cases none⟩⟩
  · simpa [rooted] using own

theorem table_rooted (rules : List (TaggedRule D)) :
    (∀ e ∈ table rules, ∃ c rest, e.1 = .symbol c :: rest) ↔ ∀ rule ∈ rules, rule.rooted = true := by
  induction rules using List.reverseRecOn with
  | nil => simp [table]
  | append_singleton rules rule ih =>
    simp only [table_concat, List.forall_mem_append, ih, rule.entries_rooted,
      List.forall_mem_singleton]

theorem forM_validate (rules : List (TaggedRule D)) :
    rules.forM TaggedRule.validate =
      match rules.find? fun rule => rule.handler.isNone with
      | some rule => .error (.noHandler rule.missing)
      | none => .ok () := by
  induction rules with
  | nil => rfl
  | cons rule rules ih =>
    change (rule.validate >>= fun _ => rules.forM TaggedRule.validate) = _
    rw [List.find?_cons, TaggedRule.validate]
    cases handler : rule.handler with
    | none => rfl
    | some f => exact ih

theorem Holds.shaped {trie : Trie} {es : List (RulePattern × Nat)} (holds : Holds trie es) :
    Shaped trie := by
  obtain ⟨labels, labelled, _⟩ := holds
  exact labelled.shaped

theorem Holds.optimize {trie : Trie} {es : List (RulePattern × Nat)} (holds : Holds trie es)
    (walk : Walk) : ∃ merged, trie.optimize walk = some merged ∧ Merges trie merged := by
  obtain ⟨labels, labelled, _⟩ := holds
  refine optimize_merges labelled.shaped ?_
  rintro rfl
  have root := labelled.root
  rw [List.length_eq_zero_iff.mp labelled.length_eq] at root
  cases root

/-- What becomes of the start: patterns are told apart first, then the root has to be bare, then every
rule needs its handler. It always comes to an end. -/
theorem start_cases (walk : Walk) (rules : List (TaggedRule D)) :
    (¬((table rules).map Prod.fst).Nodup → start walk rules = .error (.add .exists)) ∧
    (((table rules).map Prod.fst).Nodup →
      ((¬∀ rule ∈ rules, rule.rooted = true) → start walk rules = .error .header) ∧
      ((∀ rule ∈ rules, rule.rooted = true) →
        (∀ rule, rules.find? (fun rule => rule.handler.isNone) = some rule →
          start walk rules = .error (.noHandler rule.missing)) ∧
        ((∀ rule ∈ rules, rule.handler.isSome = true) → ∃ trie merged,
          Holds trie (table rules) ∧ Merges trie merged ∧
            start walk rules = .ok ⟨none :: none :: rules.map some, merged⟩))) := by
  unfold start
  rcases register_holds rules with ⟨twice, refused⟩ | ⟨nodup, trie, called, holds⟩
  · rw [refused]
    exact ⟨fun _ => rfl, fun nodup => absurd nodup twice⟩
  rw [called]
  refine ⟨fun twice => absurd nodup twice, fun _ => ?_⟩
  obtain ⟨merged, optimized, merges⟩ := holds.optimize walk
  have listed : (none :: none :: rules.map Option.some).filterMap id = rules := by
    simp [List.filterMap_map]
  have header := holds.header.trans (table_rooted rules)
  simp only [Router.validate, optimized, listed, forM_validate]
  constructor
  · exact fun unrooted => if_neg fun simple => unrooted (header.mp simple)
  · intro rooted
    rw [if_pos (header.mpr rooted)]
    constructor
    · intro rule found
      rw [found]
      rfl
    · intro all
      have none : rules.find? (fun rule => rule.handler.isNone) = none := by
        rw [List.find?_eq_none]
        exact fun rule member => by simp [Option.isSome_iff_ne_none.mp (all rule member)]
      rw [none]
      exact ⟨trie, merged, holds, merges, rfl⟩

theorem start_ok {walk : Walk} {rules : List (TaggedRule D)} {router : Router D}
    (started : start walk rules = .ok router) :
    (((table rules).map Prod.fst).Nodup ∧ (∀ rule ∈ rules, rule.rooted = true) ∧
      ∀ rule ∈ rules, rule.handler.isSome = true) ∧
    ∃ trie merged, Holds trie (table rules) ∧ Merges trie merged ∧
      router = ⟨none :: none :: rules.map some, merged⟩ := by
  obtain ⟨twice, once⟩ := start_cases walk rules
  have nodup : ((table rules).map Prod.fst).Nodup := by
    by_contra not
    cases (twice not).symm.trans started
  obtain ⟨unrooted, checked⟩ := once nodup
  have rooted : ∀ rule ∈ rules, rule.rooted = true := by
    by_contra not
    cases (unrooted not).symm.trans started
  obtain ⟨missing, complete⟩ := checked rooted
  have all : ∀ rule ∈ rules, rule.handler.isSome = true := by
    intro rule member
    cases found : rules.find? fun rule => rule.handler.isNone with
    | some first => cases (missing first found).symm.trans started
    | none => simpa [Option.isSome_iff_ne_none] using List.find?_eq_none.mp found rule member
  obtain ⟨trie, merged, holds, merges, called⟩ := complete all
  cases called.symm.trans started
  exact ⟨⟨nodup, rooted, all⟩, trie, merged, holds, merges, rfl⟩

/-- The server starts if and only if no pattern is twice in the table of the rules, every rule begins
with a character of its own, and every rule has its handler. -/
theorem start_isOk_iff (walk : Walk) (rules : List (TaggedRule D)) :
    (∃ router, start walk rules = .ok router) ↔ ((table rules).map Prod.fst).Nodup ∧
      (∀ rule ∈ rules, rule.rooted = true) ∧ ∀ rule ∈ rules, rule.handler.isSome = true := by
  constructor
  · rintro ⟨router, started⟩
    exact (start_ok started).1
  · rintro ⟨nodup, rooted, all⟩
    obtain ⟨_, _, _, _, started⟩ := (((start_cases walk rules).2 nodup).2 rooted).2 all
    exact ⟨_, started⟩

/-! ## The answer -/

/-- A number whose pattern is filled by a URL, with what fills it. -/
def Candidate (strtod : Strtod D) (rules : List (TaggedRule D)) (url : Bytes) (n : Nat)
    (values : List (Param D)) : Prop :=
  ∃ p, (p, n) ∈ table rules ∧ Pattern.fill (readParam strtod) p url = some values

def answer (rules : List (TaggedRule D)) (req : Request) (n : Nat) (values : List (Param D)) :
    Response :=
  if n = ruleSpecialRedirectSlash then Router.redirect req
  else
    match rules[n - 2]? with
    | none => { code := 404 }
    | some rule =>
      if rule.methods &&& ((1 : UInt32) <<< req.method) = 0 then { code := 404 }
      else (rule.handler.bind fun f => f req values).getD { code := 500 }

theorem mem_table {rules : List (TaggedRule D)} {p : RulePattern} {n : Nat} :
    (p, n) ∈ table rules ↔ ∃ (i : Nat) (rule : TaggedRule D),
      rules[i]? = some rule ∧ (p, n) ∈ rule.entries (2 + i) := by
  simp only [table, List.mem_flatMap, Prod.exists, List.mem_zipIdx_iff_le_and_getElem?_sub]
  constructor
  · rintro ⟨rule, m, ⟨low, found⟩, member⟩
    exact ⟨m - 2, rule, found, by rwa [Nat.add_sub_cancel' low]⟩
  · rintro ⟨i, rule, found, member⟩
    exact ⟨rule, 2 + i, ⟨Nat.le_add_right 2 i, by simpa using found⟩, member⟩

theorem number_of_mem_table {rules : List (TaggedRule D)} {p : RulePattern} {n : Nat}
    (member : (p, n) ∈ table rules) : n = ruleSpecialRedirectSlash ∨
      ∃ i rule, rules[i]? = some rule ∧ n = 2 + i ∧ p = rule.pattern := by
  obtain ⟨i, rule, found, member⟩ := mem_table.mp member
  rcases List.mem_cons.mp member with own | short
  · cases own
    exact Or.inr ⟨i, rule, found, rfl, rfl⟩
  · split at short
    · cases List.mem_singleton.mp short
      exact Or.inl rfl
    · cases short

theorem TaggedRule.call_values {strtod : Strtod D} {rule : TaggedRule D} {url : Bytes}
    {values : List (Param D)} (few : rule.pattern.kinds.length ≤ maxParameters)
    (full : Pattern.fill (readParam strtod) rule.pattern url = some values) :
    call (pushAll {} values) rule.args = some values := by
  have same := (arguments_getParameterTag rule.patternOf_eq few).symm.trans rule.tagged
  rw [← Option.some.inj same, ← fill_argTypes full]
  exact call_pushAll values

section
variable {walk : Walk} {rules : List (TaggedRule D)} {router : Router D}

theorem Holds.find_best {trie merged : Trie} (holds : Holds trie (table rules))
    (merges : Merges trie merged) (walk : Walk) (strtod : Strtod D) (url : Bytes) :
    Best (fun n found => ∃ values, Candidate strtod rules url n values ∧ found = pushAll {} values)
      (merged.find walk strtod merged.length url 0 {}) := by
  obtain ⟨labels, labelled, _, known⟩ := holds
  have some : 0 < merged.length := by
    rw [merges.length_eq, ← labelled.length_eq]
    exact (List.getElem?_eq_some_iff.mp labelled.root).1
  have best : Best (Fits strtod merged 0 url {})
      (merged.find walk strtod merged.length url 0 {}) :=
    Trie.find_best merges.shaped merged.length 0 url {} some (Nat.le_add_left _ _)
  refine best.congr fun n found => ?_
  unfold Fits Candidate
  simp only [merges.leads, labelled.leads_root, known]
  constructor
  · rintro ⟨p, values, member, full, same⟩
    exact ⟨values, ⟨p, member, full⟩, same⟩
  · rintro ⟨values, ⟨p, member, full⟩, same⟩
    exact ⟨p, values, member, full, same⟩

theorem Candidate.pos {strtod : Strtod D} {url : Bytes} {n : Nat} {values : List (Param D)}
    (candidate : Candidate strtod rules url n values) : 1 ≤ n := by
  obtain ⟨p, member, _⟩ := candidate
  rcases number_of_mem_table member with rfl | ⟨i, _, _, rfl, _⟩
  · exact Nat.le_refl 1
  · omega

theorem Candidate.unique {strtod : Strtod D} {url : Bytes} {n : Nat} {values others : List (Param D)}
    (first : Candidate strtod rules url n values) (second : Candidate strtod rules url n others)
    (rule : n ≠ ruleSpecialRedirectSlash) : values = others := by
  obtain ⟨p, member, full⟩ := first
  obtain ⟨q, member', full'⟩ := second
  rcases number_of_mem_table member with redirect | ⟨i, rule, place, rfl, rfl⟩
  · exact absurd redirect rule
  rcases number_of_mem_table member' with redirect | ⟨j, rule', place', same, rfl⟩
  · exact absurd redirect rule
  obtain rfl : i = j := by omega
  cases place.symm.trans place'
  exact Option.some.inj (full.symm.trans full')

/-- Merging leaves every search as it was: after any rules that were let in, the merged trie gives
every URL the number that the trie before gave it, and the parameters of the rule of that number. -/
theorem optimize_agrees (registered : rules.foldlM Router.internalAddRuleObject {} = .ok router)
    (walk before behind : Walk) (strtod : Strtod D) (url : Bytes) :
    ∃ merged, router.trie.optimize walk = some merged ∧
      (merged.find behind strtod merged.length url 0 {}).1 =
        (router.trie.find before strtod router.trie.length url 0 {}).1 ∧
      (2 ≤ (merged.find behind strtod merged.length url 0 {}).1 →
        merged.find behind strtod merged.length url 0 {} =
          router.trie.find before strtod router.trie.length url 0 {}) := by
  rcases register_holds rules with ⟨_, refused⟩ | ⟨_, trie, called, holds⟩
  · cases refused.symm.trans registered
  cases called.symm.trans registered
  obtain ⟨merged, optimized, merges⟩ := holds.optimize walk
  have plain := holds.find_best (.refl holds.shaped) before strtod url
  have best := holds.find_best merges behind strtod url
  refine ⟨merged, optimized, best.unique plain, fun some => ?_⟩
  obtain ⟨values, candidate, pushed⟩ := best.chosen (by omega)
  obtain ⟨others, candidate', pushed'⟩ := plain.chosen (by rw [← best.unique plain]; omega)
  rw [← best.unique plain] at candidate'
  have same := candidate.unique candidate' (by unfold ruleSpecialRedirectSlash; omega)
  exact Prod.ext (best.unique plain) (by rw [pushed, pushed', same])

theorem handle_none (started : start walk rules = .ok router) (walk' : Walk) (strtod : Strtod D)
    (req : Request) (none : ∀ n values, ¬Candidate strtod rules req.url n values) :
    router.handle walk' strtod req = .ok { code := 404 } := by
  obtain ⟨_, trie, merged, holds, merges, rfl⟩ := start_ok started
  have best := holds.find_best merges walk' strtod req.url
  refine if_pos ?_
  by_contra some
  obtain ⟨values, candidate, _⟩ := best.chosen some
  exact none _ _ candidate

theorem handle_least (started : start walk rules = .ok router)
    (few : ∀ rule ∈ rules, rule.pattern.kinds.length ≤ maxParameters) (walk' : Walk)
    (strtod : Strtod D) (req : Request) {n : Nat} {values : List (Param D)}
    (candidate : Candidate strtod rules req.url n values)
    (least : ∀ m others, Candidate strtod rules req.url m others → n ≤ m) :
    router.handle walk' strtod req = .ok (answer rules req n values) := by
  obtain ⟨_, trie, merged, holds, merges, rfl⟩ := start_ok started
  have best := holds.find_best merges walk' strtod req.url
  unfold Router.handle
  simp only []
  generalize merged.find walk' strtod merged.length req.url 0 {} = found at best
  have some := Nat.one_le_iff_ne_zero.mp candidate.pos
  obtain ⟨given, low⟩ := best.least n _ ⟨values, candidate, rfl⟩ some
  obtain ⟨others, chosen, pushed⟩ := best.chosen given
  have same : found.1 = n := Nat.le_antisymm low (least _ _ chosen)
  rw [same] at chosen ⊢
  obtain ⟨p, member, full⟩ := id candidate
  rw [if_neg some, answer]
  rcases number_of_mem_table member with rfl | ⟨i, rule, place, rfl, rfl⟩
  · rw [if_neg, if_pos rfl, if_pos rfl]
    simp [ruleSpecialRedirectSlash]
  have other : 2 + i ≠ ruleSpecialRedirectSlash := by
    unfold ruleSpecialRedirectSlash
    omega
  have inside := (List.getElem?_eq_some_iff.mp place).1
  have slot : (none :: none :: rules.map Option.some)[2 + i]? = Option.some (Option.some rule) := by
    rw [Nat.add_comm]
    simpa using place
  rw [if_neg (by simp; omega), if_neg other, if_neg other, slot, Nat.add_sub_cancel_left, place]
  simp only [Option.join_some]
  split
  · rfl
  · rw [TaggedRule.handle, pushed, chosen.unique candidate other,
      TaggedRule.call_values (few rule (List.mem_of_getElem? place)) full]

/-- A started router gives a URL to the least number whose pattern it fills, whatever the order in
which its maps are walked, and calls the handler with what fills the pattern. -/
theorem handle_result (started : start walk rules = .ok router)
    (few : ∀ rule ∈ rules, rule.pattern.kinds.length ≤ maxParameters) (walk' : Walk)
    (strtod : Strtod D) (req : Request) :
    ((∀ n values, ¬Candidate strtod rules req.url n values) →
      router.handle walk' strtod req = .ok { code := 404 }) ∧
    ∀ n values, Candidate strtod rules req.url n values →
      (∀ m others, Candidate strtod rules req.url m others → n ≤ m) →
      router.handle walk' strtod req = .ok (answer rules req n values) :=
  ⟨handle_none started walk' strtod req,
    fun _ _ candidate least => handle_least started few walk' strtod req candidate least⟩

end

end

/-! A directory and a rule below it. -/

def asIs : Walk := ⟨fun children => children, fun _ => List.Perm.refl _⟩

/-- A rule with a pattern of few parameters has a tag with all of them. -/
def TaggedRule.of {D : Type} (rule : Bytes) {p : RulePattern} (pattern : patternOf 0 rule = some p)
    (few : p.kinds.length ≤ maxParameters) (methods : UInt32)
    (handler : Option (Request → List (Param D) → Option Response)) : TaggedRule D where
  rule
  args := p.kinds.map ParamType.argType
  tagged := arguments_getParameterTag pattern few
  methods
  handler

def itemRules : List (TaggedRule Unit) :=
  let answers : Option (Request → List (Param Unit) → Option Response) := some fun _ _ => some {}
  [.of (p := (ascii "/item/").map .symbol) (ascii "/item/") (by decide) (by decide) 2 answers,
    .of (p := (ascii "/item/").map .symbol ++ [.hole .int]) (ascii "/item/<int>") (by decide)
      (by decide) 2 answers]

def itemRegistered : Router Unit :=
  (itemRules.foldlM Router.internalAddRuleObject {}).toOption.getD {}

def itemRouter : Router Unit := (start asIs itemRules).toOption.getD {}

theorem table_itemRules_nodup : ((table itemRules).map Prod.fst).Nodup := by decide

theorem register_itemRules : itemRules.foldlM Router.internalAddRuleObject {} = .ok itemRegistered := by
  rcases register_holds itemRules with ⟨twice, _⟩ | ⟨_, trie, called, _⟩
  · exact absurd table_itemRules_nodup twice
  · rw [itemRegistered, called]
    rfl

theorem optimize_agrees_item : ∃ merged, itemRegistered.trie.optimize asIs = some merged ∧
    (merged.find asIs noDoubles merged.length (ascii "/item/7") 0 {}).1 =
      (itemRegistered.trie.find asIs noDoubles itemRegistered.trie.length (ascii "/item/7") 0 {}).1 ∧
    (2 ≤ (merged.find asIs noDoubles merged.length (ascii "/item/7") 0 {}).1 →
      merged.find asIs noDoubles merged.length (ascii "/item/7") 0 {} =
        itemRegistered.trie.find asIs noDoubles itemRegistered.trie.length (ascii "/item/7") 0 {}) :=
  optimize_agrees register_itemRules asIs asIs asIs noDoubles (ascii "/item/7")

theorem start_itemRules : start asIs itemRules = .ok itemRouter := by
  obtain ⟨_, _, _, _, started⟩ :=
    (((start_cases asIs itemRules).2 table_itemRules_nodup).2 (by decide)).2 (by decide)
  rw [itemRouter, started]
  rfl

/-- The directory without its slash is redirected to it. -/
theorem handle_result_item :
    itemRouter.handle asIs noDoubles ⟨1, ascii "/item?a=b", ascii "/item", [(ascii "host", ascii "h")],
      []⟩ = .ok { code := 301, headers := [(ascii "Location", ascii "http://h/item/")] } :=
  (handle_result start_itemRules (by decide) asIs noDoubles _).2 1 []
    ⟨(ascii "/item").map .symbol, by decide, by decide⟩ fun _ _ candidate => candidate.pos

end Pinocchio.Crow
