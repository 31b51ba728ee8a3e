import Transplant.CommandLine.Arguments

/-! The texts that explain the command line. -/
namespace Transplant.CommandLine

def versionLine : String := "splice 0.1.0"

def overview : List String :=
  ["Splice CLI (inline method bodies into call sites)","","Usage: splice [OPTIONS] <COMMAND>","",
    "Commands:",
    "  blocks  Print the code blocks that replace a call to a method",
    "  check   Check whether a method can be inlined",
    "  help    Print this message or the help of the given subcommand(s)","",
    "Options:",
    "      --config <CONFIG>  Config file (defaults to `splice.toml` next to the source file)",
    "  -h, --help             Print help",
    "  -V, --version          Print version"]

def blocksHelp : List String :=
  ["Print the code blocks that replace a call to a method","",
    "Usage: splice blocks [OPTIONS] --method <METHOD> <FILE>","",
    "Arguments:","  <FILE>  Java file declaring the method","",
    "Options:",
    "      --config <CONFIG>         Config file (defaults to `splice.toml` next to the source file)",
    "      --method <METHOD>         Name of the method to inline",
    "      --json                    Emit JSON suitable for tooling",
    "      --arg <ARGS>              Argument expression, once per parameter in order",
    "      --receiver <RECEIVER>     Explicit receiver of the call",
    "      --receiver-static         The receiver names a type rather than an instance",
    "      --used-name <USED_NAMES>  Name already visible at the call site",
    "      --mode <MODE>             [default: statement] [possible values: statement, expression]",
    "      --package <PACKAGE>       Package of the calling compilation unit",
    "  -h, --help                    Print help"]

def checkHelp : List String :=
  ["Check whether a method can be inlined","",
    "Usage: splice check [OPTIONS] --method <METHOD> <FILE>","",
    "Arguments:","  <FILE>  Java file declaring the method","",
    "Options:",
    "      --config <CONFIG>  Config file (defaults to `splice.toml` next to the source file)",
    "      --method <METHOD>  Name of the method to inline",
    "      --json             Emit JSON suitable for tooling",
    "      --params <PARAMS>  Parameter count, to pick one of several overloads",
    "  -h, --help             Print help"]

def helpHelp : List String :=
  ["Print this message or the help of the given subcommand(s)","",
    "Usage: splice help [COMMAND]...","",
    "Arguments:","  [COMMAND]...  Print help for the subcommand(s)"]

def helpLines : Option Verb → List String
  | some .blocks => blocksHelp
  | some .check => checkHelp
  | some .help => helpHelp
  | none => overview

def usageLines : List String :=
  ["Usage: splice [OPTIONS] <COMMAND>","","For more information, try '--help'."]

end Transplant.CommandLine
