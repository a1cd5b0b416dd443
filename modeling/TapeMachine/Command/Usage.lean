set_option autoImplicit false

/-!
# Command: usage

The texts that explain how the program is called, under the name it was called by.  Each text ends
with a blank line.
-/

namespace TapeMachine.Command.Usage

/-- The lines of a text, each ended, and a blank line. -/
def text (lines : List String) : String := String.join (lines.map fun l => l ++ "\n") ++ "\n"

/-- How the program is called. -/
def top (program : String) : String :=
  text [
    "Usage:",
    s!"  {program} run   [OPTIONS] \"<code>\"          # Run Brainfuck code (args are concatenated)",
    s!"  {program} run   [OPTIONS] --file <PATH>     # Run Brainfuck code loaded from file",
    s!"  {program} check \"<code>\" | --file <PATH>    # Validate loop brackets without running",
    "",
    s!"Run \"{program} <subcommand> --help\" for more info."]

/-- How a program is run. -/
def run (program : String) : String :=
  text [
    "Usage:",
    s!"  {program} run [OPTIONS] \"<code>\"",
    s!"  {program} run [OPTIONS] --file <PATH>",
    "",
    "Options:",
    "  --file,  -f <PATH>     Read Brainfuck code from PATH instead of positional \"<code>\"",
    "  --input, -i <TEXT>     Use TEXT as program input",
    "  --input-file <PATH>    Read program input from PATH",
    "  --eof <error|zero>     Behavior of `,` once input is exhausted (default: error)",
    "  --timeout <MS>         Abort after MS milliseconds of wall-clock time",
    "  --max-steps <N>        Abort after N executed instructions",
    "  --debug, -d            Print a step-by-step table of operations",
    "  --help,  -h            Show this help",
    "",
    "Notes:",
    "- Without --input or --input-file, piped STDIN is read up front as program input.",
    "- Input is consumed as raw bytes, one per `,`; it does not need to be UTF-8.",
    "- Any character outside of Brainfuck's ><+-.,[] is treated as a comment.",
    "- Defaults can be set in $XDG_CONFIG_HOME/bfi.toml under [interpreter]",
    "  or through BF_EOF, BF_TIMEOUT_MS and BF_MAX_STEPS.",
    "",
    "Examples:",
    "- Echo the first byte of input:",
    s!"    {program} run --input \"A\" \",.\"",
    "- Load Brainfuck code from a file and feed it a file as input:",
    s!"    {program} run --file ./program.bf < input.txt"]

/-- How a program is checked. -/
def check (program : String) : String :=
  text [
    "Usage:",
    s!"  {program} check \"<code>\"",
    s!"  {program} check --file <PATH>",
    "",
    "Options:",
    "  --file, -f <PATH>  Read Brainfuck code from PATH instead of positional \"<code>\"",
    "  --help, -h         Show this help",
    "",
    "Notes:",
    "- Reports the innermost '[' that is never closed. A stray ']' is not an error."]

end TapeMachine.Command.Usage
