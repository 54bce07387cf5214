import Builderbot.Git.Types
import Builderbot.Staged.TerminalOutput

/-!
# Command output in prompts

The functions of `apps/staged/src-tauri/src/terminal_output.rs` that turn the output of a command into text for a prompt,
and those of `session_runner.rs` that put it there.
-/

namespace Builderbot.Staged.PromptText

open Builderbot.Lib.Text Builderbot.Git

/-- `normalize_display_output`. -/
def normalizeDisplayOutput (raw : Text) : Text :=
  ['\n'].intercalate (({} : TerminalOutputProcessor).processChunk raw).finish

/-- `normalize_display_bytes`. -/
def normalizeDisplayBytes (bytes : List UInt8) : Text := normalizeDisplayOutput (fromUtf8Lossy bytes)

/-- `strip_prompt_hostile_chars`. -/
def stripPromptHostileChars (displayNormalized : Text) : Text :=
  displayNormalized.filterMap fun ch =>
    if ch = '\n' then some '\n' else if ch = '\t' then some ' ' else if isPromptHostileControl ch then none else some ch

/-- `truncate_for_prompt`: the tail starts `keep_chars` characters before the end. -/
def truncateForPrompt (output : Text) (maxChars : ℕ) : Text :=
  let charCount := output.length
  if charCount ≤ maxChars then output
  else
    let marker := "[Output truncated: showing tail of ".toList ++ decimal charCount ++ " characters]\n".toList
    let markerChars := marker.length
    if maxChars ≤ markerChars then marker
    else
      let keepChars := maxChars - markerChars
      marker ++ output.drop (charCount - keepChars)

/-- `PIPELINE_STEP_PROMPT_OUTPUT_MAX_CHARS`. -/
def pipelineStepPromptOutputMaxChars : ℕ := 30000

def combineNormalizedCommandOutput (stdout stderr : List UInt8) : Text :=
  let stdout := normalizeDisplayBytes stdout
  let stderr := normalizeDisplayBytes stderr
  if stderr = [] then stdout
  else if stdout = [] then stderr
  else stdout ++ '\n' :: stderr

def formatStepOutputForPrompt (label command output : Text) (failed : Bool) : Text :=
  let output := stripPromptHostileChars output
  let output := truncateForPrompt output pipelineStepPromptOutputMaxChars
  let status := if failed then " (FAILED)".toList else []
  "### ".toList ++ label ++ status ++ "\nCommand: ".toList ++ command ++ "\n```\n".toList ++ output ++ "\n```".toList

/-- The loop of `replace`, `skip` characters before the end of a match. -/
def replaceFrom (pat new : Text) (skip : ℕ) : Text → Text
  | [] => []
  | c :: s =>
    if 0 < skip then replaceFrom pat new (skip - 1) s
    else if pat <+: c :: s then new ++ replaceFrom pat new (pat.length - 1) s
    else c :: replaceFrom pat new 0 s

/-- `str::replace` of a text that is not empty. -/
def replace (pat new s : Text) : Text := replaceFrom pat new 0 s

/-- `step_outputs.join("\n\n")`. -/
def joinOutputs (stepOutputs : List Text) : Text := ['\n', '\n'].intercalate stepOutputs

/-- A prompt template with the outputs in their place. -/
def fillTemplate (promptTemplate : Text) (stepOutputs : List Text) : Text :=
  replace "{step_outputs}".toList (joinOutputs stepOutputs) promptTemplate

end Builderbot.Staged.PromptText
