set_option autoImplicit false

/-!
# Faults

What can go wrong with an index, by cause, and its wording.  A failure is a cause with the activities that it
stopped, the outermost first.
-/

namespace CodeIndex

inductive Fault where
  | noVersionControl (reason : String)
  | inconsistent (problems : List String)
  | notFound (kind name : String)
  | invalidName (name : String)
  | malformed (what reason : String)
  | missingFields (what : String) (fields : List String)
  | noIndex (path : String)
  | storage (path reason : String)
  deriving DecidableEq, Repr, Inhabited

namespace Fault

def message : Fault → String
  | .noVersionControl reason => "version control unavailable: " ++ reason
  | .inconsistent problems => "index integrity violation: " ++ "; ".intercalate problems
  | .notFound kind name => kind ++ " '" ++ name ++ "' not found"
  | .invalidName name =>
    "invalid module name '" ++ name ++ "' (allowed: letters, digits, '_', '-', '.')"
  | .malformed what reason => "malformed JSON in " ++ what ++ ": " ++ reason
  | .missingFields what fields => what ++ " is missing required fields: " ++ ", ".intercalate fields
  | .noIndex path => "no split index found at " ++ path
  | .storage path reason => "I/O error on " ++ path ++ ": " ++ reason

/-- A full build is the only safe answer. -/
def needsRebuild : Fault → Bool
  | .noVersionControl _ => true
  | .inconsistent _ => true
  | .malformed _ _ => true
  | .missingFields _ _ => true
  | .noIndex _ => true
  | .notFound _ _ => false
  | .invalidName _ => false
  | .storage _ _ => false

end Fault

inductive Cause where
  | fault (fault : Fault)
  | other (message : String)
  /-- A source that its scanner cannot take apart; the whole activity stops. -/
  | unscannable
  deriving DecidableEq, Repr, Inhabited

structure Failure where
  /-- Activities, the outermost first. -/
  during : List String
  cause : Cause
  deriving DecidableEq, Repr, Inhabited

namespace Failure

def ofFault (f : Fault) : Failure := ⟨[], .fault f⟩

def other (message : String) : Failure := ⟨[], .other message⟩

def causeText : Cause → String
  | .fault f => f.message
  | .other message => message
  | .unscannable => "source cannot be scanned"

/-- The failure within a larger activity. -/
def within (f : Failure) (activity : String) : Failure := { f with during := activity :: f.during }

/-- The outermost activity, or the cause itself. -/
def headline (f : Failure) : String := f.during.head?.getD (causeText f.cause)

/-- All activities and the cause. -/
def fullText (f : Failure) : String := ": ".intercalate (f.during ++ [causeText f.cause])

def fault? (f : Failure) : Option Fault :=
  match f.cause with
  | .fault f => some f
  | _ => none

end Failure

end CodeIndex
