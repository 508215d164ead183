import Solcompat.Lib.Lines
import Solcompat.Lib.Pattern
import Solcompat.Lib.Ranges

/-!
# Patching of headers

The append step of `install-headers` in the `Makefile`, for one `.append` file and its target. Files
are texts, and `grep` and `sed` work on their lines; `sed` leaves out the newline behind the last
line only where the file has none there.
-/

namespace Solcompat.Install

open Lib Lines

def grep (pattern file : Text) : List Text := (contents file).filter (Pattern.isMatch pattern)

/-- `sed 's/text//'` on one line: without the first occurrence. -/
def removeFirst (text : Text) : Text → Text
  | [] => []
  | c :: cs =>
    if text.isPrefixOf (c :: cs) then (c :: cs).drop text.length else c :: removeFirst text cs

/-- `sed -i '/start/,/stop/d'` -/
def sedDelete (start stop file : Text) : Text :=
  (Ranges.deleteRanges (fun l => Pattern.isMatch start (content l))
    (fun l => Pattern.isMatch stop (content l)) false (lines file)).flatten

/-- `guard`, empty if no line of the file has one. -/
def guardOf (append_file : Text) : Text :=
  removeFirst "#ifndef ".toList ((grep "^#ifndef _SOLCOMPAT_".toList append_file).headD [])

/-- The target afterwards. There is no target before if it is `none`. -/
def appendStep (append_file : Text) : Option Text → Text
  | none => append_file
  | some target =>
    let guard := guardOf append_file
    let start := "^#ifndef ".toList ++ guard ++ "$".toList
    let stop := "^#endif.*".toList ++ guard
    let target :=
      if guard ≠ [] ∧ grep start target ≠ [] then sedDelete start stop target else target
    target ++ "\n".toList ++ append_file

/-- Line splices are taken out before comments are looked for. -/
def spliced : Text → Text
  | '\\' :: '\n' :: cs => spliced cs
  | c :: cs => c :: spliced cs
  | [] => []

/-- Where a scan for comments is: outside, behind a slash outside, in a comment, behind a star in
a comment, or in a comment that ends with its line. -/
inductive Scan
  | outside
  | slash
  | comment
  | star
  | line
  deriving DecidableEq

/-- One character; outside of comments only white space is let through. -/
def Scan.next : Scan → Char → Option Scan
  | outside, c => if c = '/' then some slash else if c.isWhitespace then some outside else none
  | slash, c => if c = '*' then some comment else if c = '/' then some line else none
  | comment, c => if c = '*' then some star else some comment
  | star, c =>
    if c = '/' then some outside else if c = '*' then some star else some comment
  | line, c => if c = '\n' then some outside else some line

def Scan.all : Scan → Text → Option Scan
  | s, [] => some s
  | s, c :: cs => (s.next c).bind fun s => s.all cs

/-- Nothing but comments, which are all closed, and white space. -/
def CommentText (text : Text) : Prop := Scan.outside.all (spliced text) = some .outside

instance (text : Text) : Decidable (CommentText text) := inferInstanceAs (Decidable (_ = _))

/-- The characters of identifiers. -/
def Word (text : Text) : Prop := ∀ c ∈ text, c.isAlphanum = true ∨ c = '_'

instance decidableWord (text : Text) : Decidable (Word text) :=
  List.decidableBAll (fun c : Char => c.isAlphanum = true ∨ c = '_') text

/-- A name that begins with `_SOLCOMPAT_`. -/
structure Guard where
  suffix : Text
  word : Word suffix

namespace Guard

variable (g : Guard)

def name : Text := "_SOLCOMPAT_".toList ++ g.suffix

/-- `#ifndef G` -/
def opening : Text := "#ifndef ".toList ++ g.name

/-- The line starts with `#endif` and names the guard. -/
def closes (line : Text) : Bool :=
  "#endif".toList.isPrefixOf line && decide (g.name <:+: line)

end Guard

/-- Where the parts of an `.append` file are what they should be. The comment has no directive,
and so no line that could be taken for its guard. -/
structure Layout (g : Guard) (comment body closing : Text) : Prop where
  comment_ended : Ended comment
  isComment : CommentText comment
  noDirective : ∀ line ∈ contents comment, ¬ "#ifndef _SOLCOMPAT_".toList <+: line
  body_ended : Ended body
  noClosing : ∀ line ∈ contents body, g.closes line = false
  closing_line : '\n' ∉ closing
  closing_closes : g.closes closing = true

/-- A version of an `.append` file: a comment, `#ifndef G`, the body, and the closing line, which
may lack its newline. -/
structure Version (g : Guard) where
  comment : Text
  body : Text
  closing : Text
  newline : Bool
  layout : Layout g comment body closing

namespace Version

variable {g : Guard} (v : Version g)

def block : Text :=
  g.opening ++ "\n".toList ++ v.body ++ (v.closing ++ if v.newline then ['\n'] else [])

def text : Text := v.comment ++ v.block

end Version

/-- The target after runs with one version after the other. -/
def runs {g : Guard} (header : Text) (versions : List (Version g)) : Text :=
  versions.foldl (fun target v => appendStep v.text (some target)) header

end Solcompat.Install
