import Jers.Text.Chars

/-!
# The field table

The messages between clients, daemon and agents carry numbered fields. Each field has a fixed type
and a fixed name, kept in the table `fields` of `fields.c`; the name is what stands in the text and
`fieldtonum` finds the number of a name. Three of the names are not the constants' own spelling,
`STARTIME`, `STATSUNKNOW` and `HMAC`, and are kept as the table has them.
-/

namespace Jers

/-- The types a field can have, `enum field_types`. -/
inductive FieldType
  | bool | string | num | stringarray | map
  deriving DecidableEq, Repr

/-- The field numbers, `enum field_type` in its order. -/
inductive Field
  | jobid | jobname | queuename | args | envs | uid | shell | priority | hold | precmd
  | postcmd | defertime | submittime | starttime | tags | state | nice | stdout | stderr
  | finishtime | node | resources | retfields | jobpid | exitcode | desc | joblimit | restart
  | resname | rescount | statsrunning | statspending | statsdeferred | statsholding
  | statscompleted | statsexited | statsunknown | statstotalsubmitted | statstotalstarted
  | statstotalcompleted | statstotalexited | statstotaldeleted | statstotalunknown | wrapper
  | comment | resinuse | signal | tagKey | tagValue | pendreason | failreason | submitter
  | default | usageUtimeSec | usageUtimeUsec | usageStimeSec | usageStimeUsec | usageMaxrss
  | usageMinflt | usageMajflt | usageInblock | usageOublock | usageNvcsw | usageNivcsw
  | clearres | nonce | datetime | msgHmac | connected | pid | proxydata | acctId | error
  | returncode | version | alert | beforeAdded | beforeStarted | beforeFinished | afterAdded
  | afterStarted | afterFinished | revision | timeout | command | timestamp | flags
  | endoffields
  deriving DecidableEq, Repr

namespace Field

/-- The type column of the table. -/
def type : Field → FieldType
  | .hold | .restart | .default | .clearres | .connected => .bool
  | .jobname | .queuename | .shell | .precmd | .postcmd | .stdout | .stderr | .node
  | .desc | .resname | .wrapper | .comment | .tagKey | .tagValue | .nonce | .msgHmac
  | .proxydata | .error | .returncode | .alert | .command | .timestamp => .string
  | .args | .envs | .resources => .stringarray
  | .tags => .map
  | _ => .num

/-- The name column of the table. -/
def column : Field → String
  | .jobid => "JOBID"
  | .jobname => "JOBNAME"
  | .queuename => "QUEUENAME"
  | .args => "ARGS"
  | .envs => "ENVS"
  | .uid => "UID"
  | .shell => "SHELL"
  | .priority => "PRIORITY"
  | .hold => "HOLD"
  | .precmd => "PRECMD"
  | .postcmd => "POSTCMD"
  | .defertime => "DEFERTIME"
  | .submittime => "SUBMITTIME"
  | .starttime => "STARTIME"
  | .tags => "TAGS"
  | .state => "STATE"
  | .nice => "NICE"
  | .stdout => "STDOUT"
  | .stderr => "STDERR"
  | .finishtime => "FINISHTIME"
  | .node => "NODE"
  | .resources => "RESOURCES"
  | .retfields => "RETFIELDS"
  | .jobpid => "JOBPID"
  | .exitcode => "EXITCODE"
  | .desc => "DESC"
  | .joblimit => "JOBLIMIT"
  | .restart => "RESTART"
  | .resname => "RESNAME"
  | .rescount => "RESCOUNT"
  | .statsrunning => "STATSRUNNING"
  | .statspending => "STATSPENDING"
  | .statsdeferred => "STATSDEFERRED"
  | .statsholding => "STATSHOLDING"
  | .statscompleted => "STATSCOMPLETED"
  | .statsexited => "STATSEXITED"
  | .statsunknown => "STATSUNKNOW"
  | .statstotalsubmitted => "STATSTOTALSUBMITTED"
  | .statstotalstarted => "STATSTOTALSTARTED"
  | .statstotalcompleted => "STATSTOTALCOMPLETED"
  | .statstotalexited => "STATSTOTALEXITED"
  | .statstotaldeleted => "STATSTOTALDELETED"
  | .statstotalunknown => "STATSTOTALUNKNOWN"
  | .wrapper => "WRAPPER"
  | .comment => "COMMENT"
  | .resinuse => "RESINUSE"
  | .signal => "SIGNAL"
  | .tagKey => "TAG_KEY"
  | .tagValue => "TAG_VALUE"
  | .pendreason => "PENDREASON"
  | .failreason => "FAILREASON"
  | .submitter => "SUBMITTER"
  | .default => "DEFAULT"
  | .usageUtimeSec => "USAGE_UTIME_SEC"
  | .usageUtimeUsec => "USAGE_UTIME_USEC"
  | .usageStimeSec => "USAGE_STIME_SEC"
  | .usageStimeUsec => "USAGE_STIME_USEC"
  | .usageMaxrss => "USAGE_MAXRSS"
  | .usageMinflt => "USAGE_MINFLT"
  | .usageMajflt => "USAGE_MAJFLT"
  | .usageInblock => "USAGE_INBLOCK"
  | .usageOublock => "USAGE_OUBLOCK"
  | .usageNvcsw => "USAGE_NVCSW"
  | .usageNivcsw => "USAGE_NIVCSW"
  | .clearres => "CLEARRES"
  | .nonce => "NONCE"
  | .datetime => "DATETIME"
  | .msgHmac => "HMAC"
  | .connected => "CONNECTED"
  | .pid => "PID"
  | .proxydata => "PROXYDATA"
  | .acctId => "ACCT_ID"
  | .error => "ERROR"
  | .returncode => "RETURN_CODE"
  | .version => "VERSION"
  | .alert => "ALERT"
  | .beforeAdded => "BEFORE_ADDED"
  | .beforeStarted => "BEFORE_STARTED"
  | .beforeFinished => "BEFORE_FINISHED"
  | .afterAdded => "AFTER_ADDED"
  | .afterStarted => "AFTER_STARTED"
  | .afterFinished => "AFTER_FINISHED"
  | .revision => "REVISION"
  | .timeout => "TIMEOUT"
  | .command => "COMMAND"
  | .timestamp => "TIMESTAMP"
  | .flags => "FLAGS"
  | .endoffields => "ENDOFFIELDS"

def name (f : Field) : Str := f.column.toList

end Field

/-- The rows of the table, in order. -/
def fields : List Field := [
  .jobid, .jobname, .queuename, .args, .envs, .uid, .shell, .priority, .hold, .precmd,
  .postcmd, .defertime, .submittime, .starttime, .tags, .state, .nice, .stdout, .stderr,
  .finishtime, .node, .resources, .retfields, .jobpid, .exitcode, .desc, .joblimit, .restart,
  .resname, .rescount, .statsrunning, .statspending, .statsdeferred, .statsholding,
  .statscompleted, .statsexited, .statsunknown, .statstotalsubmitted, .statstotalstarted,
  .statstotalcompleted, .statstotalexited, .statstotaldeleted, .statstotalunknown, .wrapper,
  .comment, .resinuse, .signal, .tagKey, .tagValue, .pendreason, .failreason, .submitter,
  .default, .usageUtimeSec, .usageUtimeUsec, .usageStimeSec, .usageStimeUsec, .usageMaxrss,
  .usageMinflt, .usageMajflt, .usageInblock, .usageOublock, .usageNvcsw, .usageNivcsw,
  .clearres, .nonce, .datetime, .msgHmac, .connected, .pid, .proxydata, .acctId, .error,
  .returncode, .version, .alert, .beforeAdded, .beforeStarted, .beforeFinished, .afterAdded,
  .afterStarted, .afterFinished, .revision, .timeout, .command, .timestamp, .flags,
  .endoffields]

/-- The number of the field with the given name, or `none` where the source returns `-1`. The
source searches the table from the start, or a copy sorted by name; names are distinct, so both
searches find the same row. -/
def fieldtonum (name : Str) : Option Field := fields.find? fun f ↦ f.name == name

/-- The characters of field names: nothing that the scanner or the unescaper treats specially. -/
def isNameChar (c : Char) : Bool := c.isUpper || c == '_'

theorem mem_fields (f : Field) : f ∈ fields := by
  cases f <;> decide

/-- Looking up the name of a field finds that field: the table has no name twice. -/
theorem fieldtonum_name (f : Field) : fieldtonum f.name = some f :=
  have h : ∀ f ∈ fields, fieldtonum f.name = some f := by decide +kernel
  h f (mem_fields f)

theorem isNameChar_of_mem_name {f : Field} {c : Char} (hc : c ∈ f.name) : isNameChar c = true :=
  have h : ∀ f ∈ fields, ∀ c ∈ f.name, isNameChar c = true := by decide +kernel
  h f (mem_fields f) c hc

end Jers
