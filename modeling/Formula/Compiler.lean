import Formula.Bindings
import Formula.Expression
import Formula.Text.Quoted

/-!
# Compilers

A compiler is a collection of functions, and perhaps a resolver, to compile any number of texts
with. Functions are known by their folded names, and the one added last counts.
-/

namespace Formula

/-- Functions under folded names, and perhaps a resolver for other names. -/
structure Compiler where
  functions : Bindings
  resolver : Option Resolver

namespace Compiler

/-- The compiler without functions of its own. -/
def new : Compiler :=
  ⟨.empty, none⟩

/-- Adds a function, replacing the one of that name in whatever case. -/
def define (c : Compiler) (name : String) (entry : Entry) : Compiler :=
  { c with functions := c.functions.insert (Text.foldCase name) entry }

/-- Adds functions one after another. -/
def defineAll (c : Compiler) (functions : List (String × Entry)) : Compiler :=
  functions.foldl (fun c (name, entry) => c.define name entry) c

/-- Sets the resolver, replacing the former one. -/
def resolveWith (c : Compiler) (resolver : Resolver) : Compiler :=
  { c with resolver := some resolver }

/-- Compiles a text with the compiler's functions and resolver. -/
def compile (c : Compiler) (text : String) : Compilation :=
  compileWith text c.functions.toList c.resolver

/-- A function and what is known of its entry. -/
def describeFunction (name : String) (entry : Entry) : String :=
  let operation :=
    match entry.operation with
    | .primitive _ => "Native(<fn>)"
    | .closure _ _ => "Closure(<fn>)"
  Text.quoted name ++ ": FunctionEntry \x7b arity: " ++ toString entry.arity ++ ", op_kind: " ++
    operation ++ " \x7d"

/-- The functions of the compiler and whether it has a resolver, on one line. -/
def describe (c : Compiler) : String :=
  let functions := c.functions.toList.map fun (name, entry) => describeFunction name entry
  let resolver := if c.resolver.isSome then "Some(\"<fn>\")" else "None"
  "Compiler \x7b functions: \x7b" ++ ", ".intercalate functions ++ "\x7d, resolver: " ++ resolver ++
    " \x7d"

/-- Adding a function changes what its folded name gives, and nothing else. -/
theorem get?_define (c : Compiler) (name other : String) (entry : Entry) :
    (c.define name entry).functions.get? other =
      if other = Text.foldCase name then some entry else c.functions.get? other :=
  Bindings.get?_insert ..

end Compiler

end Formula
