import Mathlib.Data.List.Basic
import Pinocchio.Semantics.Bytes

/-! The trie of the rules, with parameters of all kinds.

Nodes are held in a vector and name their children by index, and zero is no child. A rule is added
one character at a time. Before the server starts, levels of nodes that hold nothing are merged into
the fragments above them. What the map of a node walks its fragments in is not fixed, and neither is
what `strtod` reads: both are parameters.
-/

set_option autoImplicit false

namespace Pinocchio.Crow
open Semantics

inductive ParamType where
  | int | uint | double | string | path
  deriving DecidableEq

/-- In the order in which a search tries them. -/
def ParamType.all : List ParamType := [.int, .uint, .double, .string, .path]

theorem ParamType.mem_all (t : ParamType) : t ∈ all := by
  cases t <;> decide

inductive Param (D : Type) where
  | int (value : Int)
  | uint (value : Nat)
  | double (value : D)
  | string (value : Bytes)
  deriving DecidableEq

structure RoutingParams (D : Type) where
  intParams : List Int := []
  uintParams : List Nat := []
  doubleParams : List D := []
  stringParams : List Bytes := []
  deriving DecidableEq

def RoutingParams.push {D : Type} (params : RoutingParams D) : Param D → RoutingParams D
  | .int value => { params with intParams := params.intParams ++ [value] }
  | .uint value => { params with uintParams := params.uintParams ++ [value] }
  | .double value => { params with doubleParams := params.doubleParams ++ [value] }
  | .string value => { params with stringParams := params.stringParams ++ [value] }

/-! Reading a parameter. -/

def plus : UInt8 := 43

def slash : UInt8 := 47

def ullongMax : Int := 2 ^ 64 - 1

/-- What `strtoll` and `strtoull` read in base ten where no blank is in front, and what they leave.
Nothing is read without a digit, or when the number is out of range. -/
def strtoi (low high : Int) (text : Bytes) : Option (Int × Bytes) :=
  let negative := text.head? = some minus
  let digits := if negative ∨ text.head? = some plus then text.drop 1 else text
  let numeral := digits.takeWhile isDigit
  let value : Int := if negative then -(digitsValue numeral) else digitsValue numeral
  if numeral = [] ∨ value < low ∨ high < value then none
  else some (value, digits.dropWhile isDigit)

/-- A reader of doubles, as `strtod` is one: it leaves what is behind the number. -/
structure Strtod (D : Type) where
  read : Bytes → Option (D × Bytes)
  leaves : ∀ text value left, read text = some (value, left) → left <:+ text

section
variable {D : Type} (strtod : Strtod D)

/-- A parameter in front of a text, and the text behind it. -/
def readParam (t : ParamType) (text : Bytes) : Option (Param D × Bytes) :=
  match text with
  | [] => none
  | c :: _ =>
    match t with
    | .int =>
      if isDigit c ∨ c = plus ∨ c = minus then
        (strtoi longMin longMax text).map fun got => (.int got.1, got.2)
      else none
    | .uint =>
      if isDigit c ∨ c = plus then
        (strtoi 0 ullongMax text).map fun got => (.uint got.1.toNat, got.2)
      else none
    | .double =>
      if isDigit c ∨ c = plus ∨ c = minus ∨ c = 46 then
        (strtod.read text).map fun got => (.double got.1, got.2)
      else none
    | .string =>
      let piece := text.takeWhile (· != slash)
      if piece = [] then none else some (.string piece, text.dropWhile (· != slash))
    | .path => some (.string text, [])

end

/-! The trie. -/

structure Node where
  ruleIndex : Nat := 0
  paramChildrens : ParamType → Nat := fun _ => 0
  children : List (Bytes × Nat) := []

instance : DecidableEq Node := fun node other =>
  decidable_of_iff (node.ruleIndex = other.ruleIndex ∧
      (∀ t ∈ ParamType.all, node.paramChildrens t = other.paramChildrens t) ∧
      node.children = other.children) <| by
    constructor
    · rintro ⟨rule, params, children⟩
      have params : node.paramChildrens = other.paramChildrens :=
        funext fun t => params t (ParamType.mem_all t)
      cases node
      cases other
      simp_all
    · rintro rfl
      exact ⟨rfl, fun _ _ => rfl, rfl⟩

def Node.isSimpleNode (node : Node) : Bool :=
  node.ruleIndex = 0 && ParamType.all.all fun t => node.paramChildrens t = 0

abbrev Trie := List Node

/-- The ways in which the maps of a trie are walked. -/
abbrev Walk := {walk : List (Bytes × Nat) → List (Bytes × Nat) // ∀ children, (walk children).Perm children}

def assign (map : List (Bytes × Nat)) (key : Bytes) (value : Nat) : List (Bytes × Nat) :=
  if map.any (·.1 = key) then map.map fun kv => if kv.1 = key then (key, value) else kv
  else map ++ [(key, value)]

/-- Why a rule is not added: no tag begins at a `<`, where the loop over the rule goes on for ever, or
there is a handler already. -/
inductive AddError where
  | loops
  | exists
  deriving DecidableEq

namespace Trie

def node (trie : Trie) (idx : Nat) : Node := trie[idx]?.getD {}

def newNode (trie : Trie) : Trie := trie ++ [({} : Node)]

def paramTraits : List (ParamType × Bytes) :=
  [(.int, ascii "<int>"), (.uint, ascii "<uint>"), (.double, ascii "<float>"),
    (.double, ascii "<double>"), (.string, ascii "<str>"), (.string, ascii "<string>"),
    (.path, ascii "<path>")]

def opening : UInt8 := 60

def paramChild (trie : Trie) (idx : Nat) (t : ParamType) : Trie × Nat :=
  let node := trie.node idx
  if node.paramChildrens t = 0 then
    let childrens := fun other => if other = t then trie.length else node.paramChildrens other
    (trie.newNode.set idx { node with paramChildrens := childrens }, trie.length)
  else (trie, node.paramChildrens t)

def pieceChild (trie : Trie) (idx : Nat) (c : UInt8) : Trie × Nat :=
  let node := trie.node idx
  match node.children.lookup [c] with
  | some child => (trie, child)
  | none =>
    (trie.newNode.set idx { node with children := node.children ++ [([c], trie.length)] },
      trie.length)

/-- The rest of a rule below a node; `skip` counts the characters of a parameter that are still
before it. -/
def add (trie : Trie) (ruleIndex : Nat) : Nat → Nat → Bytes → Except AddError Trie
  | idx, _, [] =>
    if (trie.node idx).ruleIndex = 0 then
      .ok (trie.set idx { trie.node idx with ruleIndex })
    else .error .exists
  | idx, skip + 1, _ :: url => add trie ruleIndex idx skip url
  | idx, 0, c :: url =>
    if c = opening then
      match paramTraits.find? fun x => x.2.isPrefixOf (c :: url) with
      | some x =>
        let next := trie.paramChild idx x.1
        add next.1 ruleIndex next.2 (x.2.length - 1) url
      | none => .error .loops
    else
      let next := trie.pieceChild idx c
      add next.1 ruleIndex next.2 0 url

section
variable (walk : Walk)

/-- The children of the children, by the fragments to both of them. -/
def merged (trie : Trie) (node : Node) : List (Bytes × Nat) :=
  (walk.1 node.children).foldl (fun merged kv =>
    (walk.1 (trie.node kv.2).children).foldl (fun merged child =>
      assign merged (kv.1 ++ child.1) child.2) merged) []

/-- The fuel is the depth of the calls, which go down or repeat a node after a merge. -/
def optimizeNode : Nat → Trie → Nat → Option Trie
  | 0, _, _ => none
  | fuel + 1, trie, idx => do
    let childrens := (ParamType.all.map (trie.node idx).paramChildrens).filter (· ≠ 0)
    let trie ← childrens.foldlM (optimizeNode fuel) trie
    let node := trie.node idx
    if node.children = [] then return trie
    if (walk.1 node.children).all fun kv => (trie.node kv.2).isSimpleNode then
      optimizeNode fuel (trie.set idx { node with children := trie.merged walk node }) idx
    else (walk.1 node.children).foldlM (fun trie kv => optimizeNode fuel trie kv.2) trie

def optimize (trie : Trie) : Option Trie :=
  optimizeNode walk (trie.length * (trie.length + 2)) trie 0

/-- Of two finds the one of the smaller rule is kept, and zero is no find. -/
def updateFound {D : Type} (found ret : Nat × RoutingParams D) : Nat × RoutingParams D :=
  if ret.1 ≠ 0 ∧ (found.1 = 0 ∨ found.1 > ret.1) then ret else found

/-- The rule for the rest of a URL below a node. The fuel is the depth of the calls, each of which
goes one node down. -/
def find {D : Type} (strtod : Strtod D) (trie : Trie) :
    Nat → Bytes → Nat → RoutingParams D → Nat × RoutingParams D
  | 0, _, _, _ => (0, {})
  | fuel + 1, url, idx, params =>
    let node := trie.node idx
    if url = [] then (node.ruleIndex, params)
    else
      let found := ParamType.all.foldl (fun found t =>
        if node.paramChildrens t ≠ 0 then
          match readParam strtod t url with
          | some (value, left) =>
            updateFound found
              (find strtod trie fuel left (node.paramChildrens t) (params.push value))
          | none => found
        else found) (0, {})
      (walk.1 node.children).foldl (fun found kv =>
        if kv.1.isPrefixOf url then
          updateFound found (find strtod trie fuel (url.drop kv.1.length) kv.2 params)
        else found) found

end

end Trie

end Pinocchio.Crow
