import TensorCost.Cost.Analysis
import TensorCost.Session.Command

/-!
# Sessions

A session holds named indices, nodes and walks, and the pool in which the nodes live. A node is
alive as long as it can be reached from a named node or from a named walk.

* `Session.step` carries out one command and `Session.run` a list of them. A command that fails
  gives no name, and changes nothing but the counter of indices and the free indices kept in the
  pool.
* Names are looked up before anything else happens, save that a comparison has to have a symbol.
-/

namespace TensorCost

/-- Values by name. -/
abbrev Bindings (α : Type) := List (Name × α)

namespace Bindings

variable {α : Type}

/-- Takes a name out. -/
def erase (b : Bindings α) (name : Name) : Bindings α := b.filter fun e => e.1 != name

/-- Gives a name to a value, and takes it from the one that had it. -/
def set (b : Bindings α) (name : Name) (a : α) : Bindings α := (name, a) :: b.erase name

end Bindings

/-- The state of a session. -/
structure Session where
  /-- The next number for an index. -/
  nextIndex : Nat := 0
  pool : Pool := .empty
  indices : Bindings Index := []
  nodes : Bindings NodeId := []
  walks : Bindings Walk := []

namespace Session

/-! ## Names -/

/-- The index of a name. -/
def index (s : Session) (name : Name) : Except Failure Index :=
  match s.indices.lookup name with
  | some i => .ok i
  | none => .error (.unknownName name)

/-- The node of a name. -/
def node (s : Session) (name : Name) : Except Failure NodeId :=
  match s.nodes.lookup name with
  | some n => .ok n
  | none => .error (.unknownName name)

/-- The walk of a name. -/
def walk (s : Session) (name : Name) : Except Failure Walk :=
  match s.walks.lookup name with
  | some w => .ok w
  | none => .error (.unknownName name)

/-- An answer of a session, and the session afterwards. -/
abbrev Step := Except Failure Reply × Session

/-- Goes on with what was looked up; nothing changes if that failed. -/
def andThen {α : Type} (s : Session) (found : Except Failure α) (f : α → Step) : Step :=
  match found with
  | .ok a => f a
  | .error e => (.error e, s)

/-- An answer that changes nothing. -/
def answer (s : Session) (r : Reply) : Step := (.ok r, s)

/-- An answer found with a changed pool, or a failure that leaves the pool changed. -/
def ofPool {α : Type} (s : Session) (result : Except Error α × Pool) (f : α → Reply) : Step :=
  ((result.1.map f).mapError .expression, { s with pool := result.2 })

/-! ## Holds -/

/-- Gives a name to a node that is held once for it, and releases the node that had the name. A node
that is given no name is released at once. -/
def bindNode (s : Session) (as? : Option Name) (n : NodeId) : Session :=
  match as? with
  | none => { s with pool := s.pool.release n }
  | some name =>
    { s with
      nodes := s.nodes.set name n
      pool := s.pool.releaseAll (s.nodes.lookup name).toList }

/-- The nodes held by the walk of a name. -/
def heldBy (s : Session) (name : Name) : List NodeId :=
  ((s.walks.lookup name).map Walk.held).getD []

/-- Gives a name to a walk, holds its nodes, and releases those of the walk that had the name. -/
def bindWalk (s : Session) (name : Name) (w : Walk) : Session :=
  { s with
    walks := s.walks.set name w
    pool := (s.pool.retainAll w.held).releaseAll (s.heldBy name) }

/-- Forgets the walk of a name and releases its nodes. -/
def dropWalk (s : Session) (name : Name) : Session :=
  { s with walks := s.walks.erase name, pool := s.pool.releaseAll (s.heldBy name) }

/-- Forgets the node of a name and releases it. -/
def dropNode (s : Session) (name : Name) : Session :=
  { s with
    nodes := s.nodes.erase name
    pool := s.pool.releaseAll (s.nodes.lookup name).toList }

/-! ## Answers -/

/-- The kind of a node that is alive. -/
def kinds (s : Session) (ns : List NodeId) : List Kind := ns.filterMap s.pool.kind?

/-- The position of each node in a list without repetitions. -/
def positions (ns : List NodeId) : Std.HashMap NodeId Nat := .ofList ns.zipIdx

/-- A listing of nodes. -/
def listing (s : Session) (ns : List NodeId) : Listing :=
  let position := positions ns
  ns.filterMap fun n => (s.pool.kind? n).map fun k => (k, (s.pool.operands n).map position.get?)

/-- Answers a construction: the new or found node gets its name. -/
def built (s : Session) (as? : Option Name) (result : Except Error NodeId × Pool) : Step :=
  let (made, q) := result
  let t := { s with pool := q }
  match made with
  | .error e => (.error (.expression e), t)
  | .ok n =>
    (.ok (.built (q.kindName n) (q.lookups - s.pool.lookups) (q.hits - s.pool.hits)),
      t.bindNode as? n)

/-- Answers a report on nodes. -/
def report (s : Session) (roots : List NodeId) (a : Analyzer) : Step :=
  match a.analyze s.pool roots with
  | (.error e, q) => (.error (.expression e), { s with pool := q })
  | (.ok r, q) => { s with pool := q }.ofPool (q.count roots) (.report r)

/-- The analyzer for a configuration, or the standard one. -/
def analyzer : Option Config.Source → Except Failure Analyzer
  | none => .ok .standard
  | some source => do
    let c ← source.config.mapError .ofSource
    (Analyzer.ofConfig c).mapError .expression

variable (H : NodeHash)

/-- Carries out one command. -/
def step (s : Session) : Command → Step
  | .index as? request =>
    let (made, next) := request.grant s.nextIndex
    let t := { s with nextIndex := next }
    match made with
    | .error e => (.error (.expression e), t)
    | .ok i => (.ok (.index i), match as? with
      | none => t
      | some name => { t with indices := t.indices.set name i })
  | .compareIndices i j =>
    s.andThen (s.index i) fun i => s.andThen (s.index j) fun j =>
      s.answer (.indexOrder (i == j) (compare i j))
  | .indexSet indices =>
    s.andThen (indices.mapM s.index) fun is => s.answer (.indices (OrderedSet.ofList is).toList)
  | .extentProduct indices =>
    s.andThen (indices.mapM s.index) fun is =>
      s.answer (.extentProduct (Index.extentProduct is))
  | .construct as? c =>
    s.andThen (c.checkSymbol.mapError .expression) fun _ =>
      s.andThen (c.resolve s.node s.index) fun c => s.built as? (s.pool.construct H c)
  | .chain as? a times c other? =>
    s.andThen (s.node a) fun a => s.andThen (other?.mapM s.node) fun other? =>
      s.built as? (c.run H other? times a (s.pool.retain a))
  | .describe a =>
    s.andThen (s.node a) fun n => s.andThen
      (match s.pool.kind? n with
        | some k => .ok k
        | none => .error (.unknownName a))
      fun k => s.answer (.description k ((s.pool.operands n).map s.pool.kindName))
  | .freeIndices a =>
    s.andThen (s.node a) fun n =>
      let (free, q) := s.pool.freeIndices n
      (.ok (.freeIndices (s.pool.derived? n).isSome free), { s with pool := q })
  | .isDerived a =>
    s.andThen (s.node a) fun n => s.answer (.derived (s.pool.derived? n).isSome)
  | .compareNodes a b =>
    s.andThen (s.node a) fun m => s.andThen (s.node b) fun n =>
      s.answer (.nodeOrder (m == n) (s.pool.same m n))
  | .inspect a =>
    s.andThen (s.node a) fun n => s.answer (.text ((s.pool.inspectNode n).getD ""))
  | .price a => s.andThen (s.node a) fun n => s.ofPool (s.pool.price n) .flops
  | .count roots =>
    s.andThen (roots.mapM s.node) fun ns => s.ofPool (s.pool.count ns) .flops
  | .traverse roots =>
    s.andThen (roots.mapM s.node) fun ns => s.answer (.listing (s.listing (s.pool.traverse ns)))
  | .kinds roots =>
    s.andThen (roots.mapM s.node) fun ns =>
      s.answer (.kinds ((s.pool.traverse ns).map s.pool.kindName))
  | .references roots =>
    s.andThen (roots.mapM s.node) fun ns =>
      let counts := s.pool.referenceCounts ns
      s.answer (.references ((s.pool.traverse ns).map fun n => (s.pool.kindName n, counts.getD n 0))
        counts.size)
  | .shared roots =>
    s.andThen (roots.mapM s.node) fun ns =>
      let position := positions (s.pool.traverse ns)
      s.answer (.shared ((s.pool.sharedNodes ns).map fun n =>
        (s.pool.kindName n, position.getD n 0)))
  | .report roots source? =>
    s.andThen (roots.mapM s.node) fun ns => s.andThen (analyzer source?) fun a => s.report ns a
  | .walk as? roots =>
    s.andThen (roots.mapM s.node) fun ns =>
      let t := match as? with
        | none => s
        | some name => s.bindWalk name (Walk.start ns)
      t.answer (.live t.pool.liveCount)
  | .next h =>
    s.andThen (s.walk h) fun w =>
      let (visit, w') := w.next s.pool
      (.ok (.visit (visit.bind s.pool.kind?) w'.visited.size), s.bindWalk h w')
  | .visited h => s.andThen (s.walk h) fun w => s.answer (.listing (s.listing w.visited.toList))
  | .finish h =>
    s.andThen (s.walk h) fun w =>
      (.ok (.listing (s.listing (w.drain s.pool).visited.toList)), s.dropWalk h)
  | .stats => s.answer (.stats s.pool.lookups s.pool.hits s.pool.liveCount)
  | .drop h =>
    let found := (s.nodes.lookup h).isSome || (s.walks.lookup h).isSome
    let t := (s.dropNode h).dropWalk h
    t.answer (.dropped found t.pool.liveCount)

/-- Carries out commands one after the other. -/
def run (s : Session) : List Command → List (Except Failure Reply) × Session
  | [] => ([], s)
  | c :: rest =>
    let (reply, t) := s.step H c
    let (replies, u) := t.run rest
    (reply :: replies, u)

end Session

end TensorCost
