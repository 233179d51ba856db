import LineBasic.Builtin

/-!
# Help

The help command lists its topics, or describes one of them.

## Main definitions

* `Help.topics` — the topics and what they say
* `Help.answer` — the answer to a request for help
-/

namespace LineBasic.Help

/-- The topics, by ascending name. -/
def topics : List (Bytes × Bytes) :=
  [(utf8 "BYE", utf8 "Exit from APPLESOFT BASIC"),
   (utf8 "CONT", utf8 "Continue execution of user program after STOP, END or ^C"),
   (utf8 "FUNCTIONS", List.intercalate [0x20] (Builtin.all.map Builtin.name)),
   (utf8 "HELP", utf8 "List the commands, or describe one of them"),
   (utf8 "LIST", utf8 "List the stored program"),
   (utf8 "NEW", utf8 "Erase the current program and all variables"),
   (utf8 "NOTRACE", utf8 "Stop printing line numbers as they execute"),
   (utf8 "RUN", utf8 "Clear variables and execute the current program"),
   (utf8 "STATEMENTS", utf8 ("DATA DEF DIM END FOR GOSUB GOTO IF INPUT LET NEXT"
     ++ " PRINT READ REM RESTORE RETURN STOP")),
   (utf8 "TRACE", utf8 "Print each line number as it executes")]

/-- The lower-case form of an ASCII letter. -/
def lower (c : UInt8) : UInt8 :=
  if 0x41 ≤ c && c ≤ 0x5a then c + 0x20 else c

/-- The answer to a request for help on a topic, or for the list of topics if there is none. -/
def answer (topic : Bytes) : Bytes :=
  if topic.isEmpty then topics.flatMap fun (name, _) => name.map lower ++ [0x0a]
  else
    match topics.lookup topic with
    | some text => text ++ [0x0a]
    | none => utf8 "No help for " ++ topic ++ [0x0a]

end LineBasic.Help
