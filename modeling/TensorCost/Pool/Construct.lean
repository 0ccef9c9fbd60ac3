import TensorCost.Pool.FreeIndices
import TensorCost.Pool.Intern

/-!
# Constructors of expressions

A `Construction` is a call of a node constructor. It leaves open how operands and loop variables are
given: by name in a request, by number and value once the names have been looked up.

* `Construction.resolve` looks the names of a construction up.
* `places` is the number of values that a shape asks of a literal.
* `Pool.construct` performs a construction on living nodes. It refuses arguments that do not make a
  node and leaves the pool as it is then, apart from free indices that it had to derive in order to
  tell; otherwise it gives the node with a hold for the caller.
* `Chain` repeats one constructor and feeds its result back.
-/

namespace TensorCost

/-- A call of a node constructor, with operands given as `ν` and loop variables as `ι`. -/
inductive Construction (ν ι : Type)
  | literal (bits : List UInt64) (shape : List Nat)
  | scalar (bits : UInt64)
  | zero (shape : List Nat)
  | identity (dim : Nat)
  | variable (name : String) (shape : List Nat)
  | failure (shape : List Nat) (message : String)
  | sum (a b : ν)
  | product (a b : ν)
  | division (dividend divisor : ν)
  | power (base exponent : ν)
  | mathFunction (name : String) (args : List ν)
  | comparison (symbol : String) (a b : ν)
  | logicalNot (a : ν)
  | logicalAnd (a b : ν)
  | logicalOr (a b : ν)
  | conditional (condition yes no : ν)
  | indexed (a : ν) (items : List (IndexItem ι))
  | flexiblyIndexed (a : ν) (dims : List (Dimension ι))
  | listTensor (items : List ν)
  | indexSum (a : ν) (bound : List ι)
  | componentTensor (a : ν) (bound : List ι)
  | delta (i j : IndexItem ι)
  deriving DecidableEq

namespace IndexItem

/-- Looks the loop variable of an entry up. -/
def resolve {ε ι κ : Type} (index : ι → Except ε κ) : IndexItem ι → Except ε (IndexItem κ)
  | free i => return .free (← index i)
  | fixed position => return .fixed position

end IndexItem

namespace Dimension

/-- Looks the loop variables of a dimension up. -/
def resolve {ε ι κ : Type} (index : ι → Except ε κ) (d : Dimension ι) :
    Except ε (Dimension κ) := do
  let strides ← d.strides.mapM fun (i, stride) => return (← index i, stride)
  return ⟨d.offset, strides⟩

end Dimension

namespace Construction

variable {ε ν μ ι κ : Type}

/-- Looks operands and loop variables up, in the order in which the construction lists them. -/
def resolve (node : ν → Except ε μ) (index : ι → Except ε κ) :
    Construction ν ι → Except ε (Construction μ κ)
  | literal bits shape => return .literal bits shape
  | scalar bits => return .scalar bits
  | zero shape => return .zero shape
  | identity dim => return .identity dim
  | .variable name shape => return .variable name shape
  | failure shape message => return .failure shape message
  | sum a b => return .sum (← node a) (← node b)
  | product a b => return .product (← node a) (← node b)
  | division a b => return .division (← node a) (← node b)
  | power a b => return .power (← node a) (← node b)
  | mathFunction name args => return .mathFunction name (← args.mapM node)
  | comparison symbol a b => return .comparison symbol (← node a) (← node b)
  | logicalNot a => return .logicalNot (← node a)
  | logicalAnd a b => return .logicalAnd (← node a) (← node b)
  | logicalOr a b => return .logicalOr (← node a) (← node b)
  | conditional c a b => return .conditional (← node c) (← node a) (← node b)
  | indexed a items => return .indexed (← node a) (← items.mapM (IndexItem.resolve index))
  | flexiblyIndexed a dims =>
    return .flexiblyIndexed (← node a) (← dims.mapM (Dimension.resolve index))
  | listTensor items => return .listTensor (← items.mapM node)
  | indexSum a bound => return .indexSum (← node a) (← bound.mapM index)
  | componentTensor a bound => return .componentTensor (← node a) (← bound.mapM index)
  | delta i j => return .delta (← i.resolve index) (← j.resolve index)

/-- The symbol of a comparison has to be known before its operands are looked at. -/
def checkSymbol : Construction ν ι → Except Error Unit
  | comparison symbol _ _ => (Comparison.ofSymbol symbol).map fun _ => ()
  | _ => .ok ()

end Construction

/-- The number of places of a shape, as a word of 64 bits holds it. The product wraps around where
it does not fit; a build that checks its arithmetic stops there instead. -/
def places (shape : List Nat) : Nat := shape.foldl (· * ·) 1 % UInt64.size

namespace Pool

variable (H : NodeHash)

/-- A node whose arguments are in order. -/
def build (p : Pool) (kind : Kind) (operands : List NodeId) : Except Error NodeId × Pool :=
  let (n, q) := p.intern H kind operands
  (.ok n, q)

/-- Indices to be bound at a node named `kind` over `a`: there has to be one, and each of them has
to be free in `a`. -/
def checkBound (p : Pool) (kind : String) (a : NodeId) (bound : List Index) :
    Except Error Unit × Pool :=
  if bound.isEmpty then (.error (.invalidNode (.emptyMultiindex kind)), p)
  else
    let (free, q) := p.freeIndices a
    match bound.find? fun i => !free.contains i with
    | some i => (.error (.invalidNode (.indexNotFree kind i.display)), q)
    | none => (.ok (), q)

/-- A node of kind `kind` over `a` that binds the indices `bound`. -/
def buildBinder (p : Pool) (kind : Kind) (a : NodeId) (bound : List Index) :
    Except Error NodeId × Pool :=
  match p.checkBound kind.name a bound with
  | (.ok (), q) => q.build H kind [a]
  | (.error e, q) => (.error e, q)

/-- Performs a construction on living nodes. -/
def construct (p : Pool) : Construction NodeId Index → Except Error NodeId × Pool
  | .literal bits shape =>
    let expected := places shape
    if bits.length = expected then p.build H (.literal bits shape) []
    else (.error (.invalidNode (.literalSize shape expected bits.length)), p)
  | .scalar bits => p.build H (.literal [bits] []) []
  | .zero shape => p.build H (.zero shape) []
  | .identity dim => p.build H (.identity dim) []
  | .variable name shape => p.build H (.variable name shape) []
  | .failure shape message => p.build H (.failure shape message) []
  | .sum a b => p.build H .sum [a, b]
  | .product a b => p.build H .product [a, b]
  | .division a b => p.build H .division [a, b]
  | .power a b => p.build H .power [a, b]
  | .mathFunction name args =>
    if args.isEmpty then (.error (.invalidNode (.functionWithoutArguments name)), p)
    else p.build H (.mathFunction name) args
  | .comparison symbol a b =>
    match Comparison.ofSymbol symbol with
    | .ok op => p.build H (.comparison op) [a, b]
    | .error e => (.error e, p)
  | .logicalNot a => p.build H .logicalNot [a]
  | .logicalAnd a b => p.build H .logicalAnd [a, b]
  | .logicalOr a b => p.build H .logicalOr [a, b]
  | .conditional c a b => p.build H .conditional [c, a, b]
  | .indexed a items =>
    if items.isEmpty then (.error (.invalidNode (.emptyMultiindex "Indexed")), p)
    else p.build H (.indexed items) [a]
  | .flexiblyIndexed a dims =>
    match (p.kind? a).filter fun kind => !kind.isTerminal with
    | some kind => (.error (.invalidNode (.operandNotTerminal kind.name)), p)
    | none =>
      if dims.isEmpty then (.error (.invalidNode .noDimensions), p)
      else p.build H (.flexiblyIndexed dims) [a]
  | .listTensor items =>
    if items.isEmpty then (.error (.invalidNode .noItems), p) else p.build H .listTensor items
  | .indexSum a bound => p.buildBinder H (.indexSum bound) a bound
  | .componentTensor a bound => p.buildBinder H (.componentTensor bound) a bound
  | .delta i j => p.build H (.delta i j) []

end Pool

/-- A constructor that a chain repeats. -/
inductive Chain
  | sum | product | division | power | logicalAnd | logicalOr | logicalNot | exp | listTensor
  deriving DecidableEq, Repr

namespace Chain

/-- One link of a chain: the constructor on the node `e` made last and another node `o`. -/
def link (e o : NodeId) : Chain → Construction NodeId Index
  | sum => .sum e o
  | product => .product e o
  | division => .division e o
  | power => .power o e
  | logicalAnd => .logicalAnd e o
  | logicalOr => .logicalOr o e
  | logicalNot => .logicalNot e
  | exp => .mathFunction "exp" [e]
  | listTensor => .listTensor [e, o]

/-- Makes `times` links, starting from the node `e` that the caller holds; the other node of each
link is `other?`, or the node made last if there is none. The hold moves on to the last node. -/
def run (H : NodeHash) (c : Chain) (other? : Option NodeId) :
    Nat → NodeId → Pool → Except Error NodeId × Pool
  | 0, e, p => (.ok e, p)
  | times + 1, e, p =>
    match p.construct H (c.link e (other?.getD e)) with
    | (.ok n, q) => run H c other? times n (q.release e)
    | (.error err, q) => (.error err, q.release e)

end Chain

end TensorCost
