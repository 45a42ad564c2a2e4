import Pinocchio.Semantics.Bytes

/-! From the request line to a handler: the characters that the HTTP parser lets into a URL,
and the trie of the rules.

The nodes of the trie are held in a vector and name their children by index. The rules of
the program have no parameters but strings, so the other kinds are left out.
-/

set_option autoImplicit false

namespace Pinocchio.Http
open Semantics

inductive HttpMethod where
  | delete | get | head | post | put | connect | options | trace
  deriving DecidableEq

def slash : UInt8 := 47

def question : UInt8 := 63

def hash : UInt8 := 35

/-! The parser of request lines. -/

inductive UrlState where
  | dead
  | spacesBeforeUrl
  | schema | schemaSlash | schemaSlashSlash
  | serverStart | server | serverWithAt
  | path
  | queryStringStart | queryString
  | fragmentStart | fragment
  deriving DecidableEq

def isAlpha (c : UInt8) : Bool := 97 ≤ c ||| 32 && c ||| 32 ≤ 122

def isMark (c : UInt8) : Bool := c ∈ ascii "-_.!~*'()"

def isUserinfoChar (c : UInt8) : Bool :=
  isAlpha c || isDigit c || isMark c || c ∈ ascii "%;:&=+$,"

/-- The characters whose bits are set in `normal_url_char`, as the strict parser has it. -/
def isUrlChar (c : UInt8) : Bool := 33 ≤ c && c ≤ 126 && c != hash && c != question

def serverChar (ch : UInt8) : UrlState :=
  if ch = slash then .path
  else if ch = question then .queryStringStart
  else if ch = 64 then .serverWithAt
  else if isUserinfoChar ch || ch = 91 || ch = 93 then .server
  else .dead

def parseUrlChar (s : UrlState) (ch : UInt8) : UrlState :=
  if ch ∈ ([32, 13, 10, 9, 12] : Bytes) then .dead
  else match s with
  | .spacesBeforeUrl =>
    if ch = slash || ch = 42 then .path
    else if isAlpha ch then .schema
    else .dead
  | .schema => if isAlpha ch then .schema else if ch = 58 then .schemaSlash else .dead
  | .schemaSlash => if ch = slash then .schemaSlashSlash else .dead
  | .schemaSlashSlash => if ch = slash then .serverStart else .dead
  | .serverWithAt => if ch = 64 then .dead else serverChar ch
  | .serverStart | .server => serverChar ch
  | .path =>
    if isUrlChar ch then .path
    else if ch = question then .queryStringStart
    else if ch = hash then .fragmentStart
    else .dead
  | .queryStringStart | .queryString =>
    if isUrlChar ch then .queryString
    else if ch = question then .queryString
    else if ch = hash then .fragmentStart
    else .dead
  | .fragmentStart =>
    if isUrlChar ch then .fragment
    else if ch = question then .fragment
    else if ch = hash then .fragmentStart
    else .dead
  | .fragment => if isUrlChar ch || ch = question || ch = hash then .fragment else .dead
  | .dead => .dead

/-- The states in which the blank behind a URL may come. -/
def UrlState.ends : UrlState → Bool
  | .server | .serverWithAt | .path | .queryStringStart | .queryString | .fragmentStart
  | .fragment => true
  | _ => false

/-- The URL of a request line, which is its second word, unless the parser refuses it. -/
def rawUrl (method : HttpMethod) (word : Bytes) : Option Bytes :=
  let start := if method = .connect then UrlState.serverStart else .spacesBeforeUrl
  if (word.foldl parseUrlChar start).ends then some word else none

/-- The URL without its query. -/
def urlOf (raw : Bytes) : Bytes := raw.takeWhile (· != question)

/-! The trie. -/

structure Node where
  ruleIndex : Nat := 0
  stringChild : Nat := 0
  children : List (Bytes × Nat) := []
  deriving DecidableEq, Inhabited

def Node.isSimpleNode (node : Node) : Bool := node.ruleIndex = 0 && node.stringChild = 0

abbrev Trie := List Node

namespace Trie
variable (trie : Trie)

def node (idx : Nat) : Node := trie[idx]?.getD {}

def newNode : Trie := trie ++ [({} : Node)]

/-- A rule is added one character at a time; `skip` counts those of a parameter that were
read already. Rules that exist already and parameters of other kinds are refused. -/
def add (trie : Trie) (ruleIndex : Nat) : Nat → Nat → Bytes → Option Trie
  | idx, _, [] =>
    if (trie.node idx).ruleIndex = 0 then some (trie.set idx { trie.node idx with ruleIndex })
    else none
  | idx, skip + 1, _ :: url => add trie ruleIndex idx skip url
  | idx, 0, c :: url =>
    let name := ascii "<string>"
    if c = 60 then
      if name.isPrefixOf (c :: url) then
        let child := (trie.node idx).stringChild
        if child = 0 then
          add (trie.newNode.set idx { trie.node idx with stringChild := trie.length }) ruleIndex
            trie.length (name.length - 1) url
        else add trie ruleIndex child (name.length - 1) url
      else none
    else
      match (trie.node idx).children.lookup [c] with
      | some child => add trie ruleIndex child 0 url
      | none =>
        let children := (trie.node idx).children ++ [([c], trie.length)]
        add (trie.newNode.set idx { trie.node idx with children }) ruleIndex trie.length 0 url

/-- Levels of nodes that hold nothing are merged into the fragments above them. -/
def optimizeNode : Nat → Trie → Nat → Trie
  | 0, trie, _ => trie
  | fuel + 1, trie, idx =>
    let param := (trie.node idx).stringChild
    let trie := if param = 0 then trie else optimizeNode fuel trie param
    let node := trie.node idx
    if node.children = [] then trie
    else if node.children.all fun kv => (trie.node kv.2).isSimpleNode then
      let merged := node.children.flatMap fun kv =>
        (trie.node kv.2).children.map fun child => (kv.1 ++ child.1, child.2)
      optimizeNode fuel (trie.set idx { node with children := merged }) idx
    else node.children.foldl (fun trie kv => optimizeNode fuel trie kv.2) trie

/-- Of two finds the one of the smaller rule is kept, and zero is no find. -/
def updateFound (found ret : Nat × List Bytes) : Nat × List Bytes :=
  if ret.1 ≠ 0 ∧ (found.1 = 0 ∨ found.1 > ret.1) then ret else found

/-- The rule for the rest of a URL below a node, with its parameters. Every call goes one node
down, so there is no need for more fuel than nodes. -/
def find : Nat → Bytes → Nat → List Bytes → Nat × List Bytes
  | 0, _, _, _ => (0, [])
  | fuel + 1, url, idx, params =>
    let node := trie.node idx
    if url = [] then (node.ruleIndex, params)
    else
      let param := url.takeWhile (· != slash)
      let found :=
        if node.stringChild ≠ 0 ∧ param ≠ [] then
          updateFound (0, [])
            (find fuel (url.dropWhile (· != slash)) node.stringChild (params ++ [param]))
        else (0, [])
      node.children.foldl (fun found kv =>
        if kv.1.isPrefixOf url then
          updateFound found (find fuel (url.drop kv.1.length) kv.2 params)
        else found) found

end Trie

/-! The router. -/

structure Rule where
  rule : Bytes
  methods : List HttpMethod := [.get]

def rules : List Rule :=
  [⟨ascii "/", [.get]⟩, ⟨ascii "/regist/<string>", [.get]⟩, ⟨ascii "/gcm/send", [.post]⟩,
    ⟨ascii "/gcm/recv/<string>", [.get]⟩,
    ⟨ascii "/gcm/publish/ServerApiKey/<string>", [.get]⟩]

def firstRule : Nat := 2

def ruleSpecialRedirectSlash : Nat := 1

/-- A rule that ends in a slash is also known without it. -/
def addRule (trie : Trie) (rule : Bytes) (ruleIndex : Nat) : Option Trie := do
  let trie ← trie.add ruleIndex 0 0 rule
  if rule.length > 1 ∧ rule.getLast? = some slash then
    trie.add ruleSpecialRedirectSlash 0 0 rule.dropLast
  else some trie

def validated : Option Trie := do
  let trie ← (rules.zipIdx firstRule).foldlM (fun trie rule => addRule trie rule.1.rule rule.2) [{}]
  if (trie.node 0).isSimpleNode then some (trie.optimizeNode trie.length 0) else none

def router : Trie := validated.get (by decide +kernel)

inductive Routing where
  | invalid
  | notFound
  | redirect
  | handler (ruleIndex : Nat) (params : List Bytes)
  deriving DecidableEq

def route (method : HttpMethod) (word : Bytes) : Routing :=
  match rawUrl method word with
  | none => .invalid
  | some raw =>
    let found := router.find router.length (urlOf raw) 0 []
    if found.1 = 0 then .notFound
    else if found.1 = ruleSpecialRedirectSlash then .redirect
    else
      match rules[found.1 - firstRule]? with
      | none => .invalid
      | some rule => if method ∈ rule.methods then .handler found.1 found.2 else .notFound

end Pinocchio.Http
