import Builderbot.Lib.Text

/-!
# Diff data types

The types of `crates/git-diff/src/types.rs` that the diff paths read and build. A `u32` line number
is a natural number; the functions that compute with line numbers check or truncate at `u32Size`
where the code does.
-/

namespace Builderbot.Git

/-- Text, one `Char` for each Unicode scalar value of a Rust `String`. -/
abbrev Text := List Char

/-- One instance for all decisions about texts with a number. -/
instance : LawfulBEq (ℕ × Text) := inferInstance

/-- A contiguous range of lines (0-indexed, exclusive end). -/
structure Span where
  start : ℕ
  stop : ℕ
deriving DecidableEq, Repr

/-- Content of a file: text lines, a binary marker, or a base64-encoded image. -/
inductive FileContent where
  | text (lines : List Text)
  | binary
  | imageBase64 (mimeType data : Text)
deriving DecidableEq, Repr

/-- A file with its path and content. -/
structure File where
  path : Text
  content : FileContent
deriving DecidableEq, Repr

/-- Summary of a file in the diff: `before` is absent for an added file, `after` for a deleted
one. -/
structure FileDiffSummary where
  before : Option Text
  after : Option Text
  addedLines : Option ℕ
  deletedLines : Option ℕ
deriving DecidableEq, Repr

/-- `FileDiffSummary::new`: a summary without line statistics. -/
def FileDiffSummary.new (before after : Option Text) : FileDiffSummary :=
  ⟨before, after, none, none⟩

/-- `FileDiffSummary::path`: the after path if there is one, else the before path. The code unwraps
the result, so `none` stands for its panic. -/
def FileDiffSummary.path (f : FileDiffSummary) : Option Text := f.after.or f.before

/-- Maps a region in before to a region in after. -/
structure Alignment where
  before : Span
  after : Span
  changed : Bool
deriving DecidableEq, Repr

/-- Full diff content for rendering a single file. -/
structure FileDiff where
  before : Option File
  after : Option File
  alignments : List Alignment
deriving DecidableEq, Repr

/-- The number of text lines of a file: none for a missing or a binary file. -/
def lineCount : Option File → ℕ
  | some ⟨_, .text lines⟩ => lines.length
  | _ => 0

end Builderbot.Git
