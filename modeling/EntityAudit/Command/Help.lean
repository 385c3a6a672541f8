import EntityAudit.Command.Arguments

/-! # Help texts -/

namespace EntityAudit

def optionLines : List String :=
  ["OPTIONS:",
    "  --config <FILE>       Config file path (default: ormcheck.toml)",
    "  --mapping <FILE>      Override metadata.mapping from config",
    "  -h, --help            Print help"]

def helpLines : HelpTopic → List String
  | .root =>
      ["ormcheck - check ORM code against the mapping metadata",
        "",
        "USAGE:",
        "  ormcheck <COMMAND> [OPTIONS]",
        "",
        "COMMANDS:",
        "  dql           Compile DQL statements against the mapping",
        "  mapping       Inspect the mapping metadata",
        "",
        "Run `ormcheck <command> --help` for more."]
  | .command .dql | .subcommand .dql =>
      ["USAGE:",
        "  ormcheck dql check [OPTIONS] [FILES...]",
        "",
        "Reads `;`-separated DQL statements from FILES (or stdin) and compiles each one.",
        ""] ++ optionLines
  | .command .mapping | .subcommand .mapping =>
      ["USAGE:",
        "  ormcheck mapping show <CLASS> [OPTIONS]",
        "",
        "Prints the mapping of CLASS as JSON.",
        ""] ++ optionLines

end EntityAudit
