import CodeIndex.Language
import CodeIndex.Source.Python
import CodeIndex.Source.Rust
import CodeIndex.Source.Script
import CodeIndex.Source.Shell

set_option autoImplicit false

/-!
# Reading a source file

The outline of a source text in a language, when the language has declarations and the text can be scanned.
-/

namespace CodeIndex

inductive Reading where
  | outline (outline : Outline)
  /-- The language has no declarations. -/
  | unsupported
  /-- The text cannot be taken apart. -/
  | unscannable
  deriving DecidableEq

namespace Reading

def ofOutline? : Option Outline → Reading
  | some o => outline o
  | none => unscannable

def ofText : Language → String → Reading
  | .shell, source => ofOutline? (Shell.outline? source)
  | .javascript, source => ofOutline? (Script.outline? source)
  | .typescript, source => ofOutline? (Script.outline? source)
  | .python, source => outline (Python.outline source)
  | .rust, source => outline (Rust.outline source)
  | .markdown, _ => unsupported

end Reading

end CodeIndex
