import Gridlock.Analysis.Report

/-!
# How the command is used

* `usage` : the switches in short
* `help` : what they are for
-/

namespace Gridlock.CommandLine

def usage : String :=
  String.intercalate "\n"
    ["usage: lockgraph [-h] [--output OUTPUT] [--json JSON] [--ci-mode]",
      "                 [--max-deadlocks MAX_DEADLOCKS] [--debug]",
      "                 [--log-file LOG_FILE] [--quiet] [--version]",
      "                 [files ...]"]

def help : String :=
  String.intercalate "\n"
    [usage,
      "",
      "LockGraph: static deadlock detector for lock-event traces",
      "",
      "positional arguments:",
      "  files                 Event trace files to analyze",
      "",
      "options:",
      "  -h, --help            show this help message and exit",
      "  --output OUTPUT, -o OUTPUT",
      "                        Output file for the report",
      "  --json JSON           Output JSON report to file",
      "  --ci-mode             Run in CI mode with non-zero exit on deadlocks",
      "  --max-deadlocks MAX_DEADLOCKS",
      "                        Maximum allowed deadlock cycles (CI mode)",
      "  --debug               Enable debug output and stack traces",
      "  --log-file LOG_FILE   Also write log records to this file",
      "  --quiet, -q           Suppress non-essential output",
      "  --version             show program's version number and exit",
      "",
      "Examples:",
      "  lockgraph trace.json",
      "  lockgraph --output report.txt traces/*.json",
      "  lockgraph --json results.json --ci-mode trace.json",
      "  lockgraph --debug --log-file lockgraph.log trace.json",
      "",
      "Exit Codes:",
      "  0: Success",
      "  1: No trace files given",
      "  2: Deadlock cycles above --max-deadlocks (CI mode)",
      "  3: Analysis error"]

def versionLine : String := "LockGraph " ++ version

end Gridlock.CommandLine
