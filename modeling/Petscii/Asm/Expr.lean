import Petscii.Text.Numeral
/-!
# Address expressions

Operands of generated code are sums: a symbol or an address, then numbers, products and symbols added to
it or subtracted from it. An assembler works them out once the symbols have values.
-/

namespace Petscii.Asm

inductive Atom where
  | number (value : Int)
  | address (value : UInt16)
  | symbol (name : String)
  deriving DecidableEq, Repr

def Atom.text : Atom → String
  | .number value => Int.repr value
  | .address value => Numeral.address value
  | .symbol name => name

inductive Term where
  | plus (a : Atom)
  | plusProduct (a b : Atom)
  | minus (a : Atom)
  deriving DecidableEq, Repr

def Term.text : Term → String
  | .plus a => "+" ++ a.text
  | .plusProduct a b => "+" ++ a.text ++ "*" ++ b.text
  | .minus a => "-" ++ a.text

/-- A first value and the terms after it. -/
structure Expr where
  base : Atom
  terms : List Term := []
  deriving DecidableEq, Repr

def Expr.text (e : Expr) : String :=
  e.base.text ++ String.join (e.terms.map Term.text)

abbrev Symbols := String → Option Int

def Atom.eval (symbols : Symbols) : Atom → Option Int
  | .number value => some value
  | .address value => some value.toNat
  | .symbol name => symbols name

def Term.eval (symbols : Symbols) : Term → Option Int
  | .plus a => a.eval symbols
  | .plusProduct a b => return (← a.eval symbols) * (← b.eval symbols)
  | .minus a => return -(← a.eval symbols)

def Expr.eval (symbols : Symbols) (e : Expr) : Option Int := do
  let base ← e.base.eval symbols
  e.terms.foldlM (fun sum t => return sum + (← t.eval symbols)) base

end Petscii.Asm
