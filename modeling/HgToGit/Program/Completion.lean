/-
# HgToGit.Program.Completion -- completion scripts

A completion script tells a shell the commands and the options of the program. Each shell has
its own form for the same list.
-/
import HgToGit.CommandLine

namespace HgToGit.Program

/-- The name of the program. -/
def name : String := "hgshim"

/-- The commands and what they do. -/
def commandHelp : List (String × String) :=
  [("translate", "Translate a single hg command line"),
    ("repl", "Translate lines read from standard input, one per line"),
    ("list", "List the recognized hg commands"),
    ("completion", "Generate shell completion scripts"),
    ("help", "Print this message or the help of the given subcommand(s)")]

/-- The long names of the options and what they do. -/
def optionHelp : List (String × String) :=
  [("debug", "Enable debug logging"),
    ("quiet", "Minimal output; warnings are suppressed"),
    ("json", "Emit one JSON object per translated line"),
    ("config", "Read configuration from this file"),
    ("help", "Print help"),
    ("version", "Print version")]

/-- How the program is used. -/
def usage : String :=
  "\n".intercalate
    (["Usage: " ++ name ++ " [OPTIONS] <COMMAND>", "", "Commands:"] ++
      commandHelp.map (fun c => "  " ++ c.1 ++ "  " ++ c.2) ++ ["", "Options:"] ++
      optionHelp.map (fun o => "  --" ++ o.1 ++ "  " ++ o.2)) ++ "\n"

/-- The words that can stand after the name of the program. -/
def completionWords : List String :=
  commandHelp.map Prod.fst ++ optionHelp.map fun o => "--" ++ o.1

/-- A text between apostrophes. -/
def apostrophes (text : String) : String := "\x27" ++ text ++ "\x27"

/-- The completion script for a shell. -/
def completionScript : Shell → String
  | .bash => "complete -W \x22" ++ " ".intercalate completionWords ++ "\x22 " ++ name ++ "\n"
  | .zsh =>
    "#compdef " ++ name ++ "\n_arguments " ++
      " ".intercalate (optionHelp.map fun o => apostrophes ("--" ++ o.1 ++ "[" ++ o.2 ++ "]")) ++
      " " ++ apostrophes ("1:command:(" ++ " ".intercalate (commandHelp.map Prod.fst) ++ ")") ++
      "\n"
  | .fish =>
    String.join
      (optionHelp.map (fun o =>
        "complete -c " ++ name ++ " -l " ++ o.1 ++ " -d " ++ apostrophes o.2 ++ "\n") ++
      commandHelp.map fun c =>
        "complete -c " ++ name ++ " -f -a " ++ c.1 ++ " -d " ++ apostrophes c.2 ++ "\n")
  | .powerShell =>
    "Register-ArgumentCompleter -Native -CommandName " ++ apostrophes name ++
      " -ScriptBlock \x7b\n  param($wordToComplete)\n  " ++
      ", ".intercalate (completionWords.map apostrophes) ++
      " | Where-Object \x7b $_ -like \x22$wordToComplete*\x22 \x7d\n\x7d\n"

end HgToGit.Program
