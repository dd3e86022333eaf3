import Formula.Main
import Formula.Proofs.Compiled
import Formula.Proofs.Height
import Formula.Proofs.Tree
import Formula.Proofs.Contract
import Formula.Proofs.Underflow
import Formula.Proofs.Calls
import Formula.Proofs.Reading
import Formula.Proofs.Written
import Formula.Proofs.Lexemes
import Formula.Proofs.Words
import Formula.Proofs.Spelling
import Formula.Proofs.Ending
import Formula.Proofs.Layout
import Formula.Proofs.Discipline
import Formula.Proofs.Faults
import Formula.Proofs.Places
import Formula.Proofs.Passage
import Formula.Proofs.Learning
import Formula.Proofs.Binding
import Formula.Proofs.Agreement
import Formula.Proofs.Longest
import Formula.Proofs.Replacement
import Formula.Proofs.Constants
import Formula.Proofs.Listing
import Formula.Proofs.Composition
import Formula.Proofs.Likeness
import Formula.Proofs.Session
import Formula.Proofs.Collisions
import Formula.Proofs.Conservation
import Formula.Proofs.FirstFault
import Formula.Proofs.Waiting
import Formula.Proofs.Balance
import Formula.Proofs.Padding
import Formula.Proofs.Mention
import Formula.Proofs.Registration
import Formula.Proofs.Decoder
import Formula.Proofs.Operands
import Formula.Proofs.Digits
import Formula.Proofs.Rendering
import Formula.Proofs.Reports
import Formula.Proofs.Exactness
import Formula.Proofs.Conditions
import Formula.Proofs.Patterns
import Formula.Proofs.Rounding
import Formula.Proofs.Doubles
import Formula.Proofs.Display
import Formula.Proofs.Postfix
