/-!
The texts the command line prints when it is asked for help.
-/

namespace DualRail.CommandLine.Help

def overview : String :=
  "photonc translates quantum circuits written as YAML gate lists into
linear-optical networks on dual-rail encoded modes, with heralded or
postselected two-qubit gates.

Usage:
  photonc [command]

Available Commands:
  compile     Compile YAML circuit files into photonic processors
  completion  Generate the autocompletion script for the specified shell
  gates       List the gate kinds the built-in catalog supports
  help        Help about any command

Flags:
  -h, --help      help for photonc
  -v, --verbose   log every compiled gate to stderr

Use \"photonc [command] --help\" for more information about a command.
"

def compile : String :=
  "Compile YAML circuit files into photonic processors

Usage:
  photonc compile FILE... [flags]

Flags:
      --concurrency int   circuits compiled at once (0 = GOMAXPROCS)
  -h, --help              help for compile
      --heralded          use heralded two-qubit gates instead of postselected ones
      --keep-identity     emit routing permutations even when they are the identity
  -o, --output string     output format: table or yaml (default \"table\")

Global Flags:
  -v, --verbose   log every compiled gate to stderr
"

def gates : String :=
  "List the gate kinds the built-in catalog supports

Usage:
  photonc gates [flags]

Flags:
  -h, --help   help for gates

Global Flags:
  -v, --verbose   log every compiled gate to stderr
"

end DualRail.CommandLine.Help
