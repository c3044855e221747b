import PartitionLog.Columns
import PartitionLog.CommandLine.Flag

/-!
# Usage texts

What the tool prints when it is asked for its version or for help.
-/

namespace PartitionLog.CommandLine

def toolName : String := "logstream-cli"

def versionText : String := toolName ++ " 0.1.0\n"

def Flag.label (f : Flag) : String :=
  let letter := match f.short? with
    | some c => String.ofList ['-', c, ',', ' ']
    | none => "    "
  let value := match f.valueName? with
    | some name => " <" ++ name ++ ">"
    | none => ""
  letter ++ "--" ++ f.long ++ value

/-- The words that a task takes, and what they mean. -/
def Task.words? : Task → Option (String × String)
  | append => some ("<PAYLOADS>...", "Record payloads")
  | dump => none
  | truncate => some ("<POSITION>", "First position to delete")

/-- What asking for help is for. -/
def guideSummary : String :=
  "Print this message or the help of the given subcommand(s)"

def titled (title : String) (rows : List (String × String)) : String :=
  "\n" ++ title ++ ":\n" ++ Columns.table rows

def optionSection (scope : Scope) : String :=
  titled "Options" (scope.flags.map fun f => (f.label, f.summary))

def usageText : Scope → String
  | .task task =>
    let words := match task.words? with
      | some (word, _) => " " ++ word
      | none => ""
    task.summary ++ "\n\nUsage: " ++ toolName ++ " " ++ task.name ++ " [OPTIONS]" ++ words ++ "\n"
      ++ (match task.words? with
        | some row => titled "Arguments" [row]
        | none => "")
      ++ optionSection (.task task)
  | .guide =>
    guideSummary ++ "\n\nUsage: " ++ toolName ++ " help [COMMAND]...\n"
      ++ titled "Arguments" [("[COMMAND]...", "Print help for the subcommand(s)")]
  | .tool =>
    "Append to, dump and truncate a partition log file\n\nUsage: " ++ toolName
      ++ " [OPTIONS] <COMMAND>\n"
      ++ titled "Commands"
        (Task.all.map (fun task => (task.name, task.summary))
          ++ [("help", guideSummary)])
      ++ optionSection .tool

end PartitionLog.CommandLine
