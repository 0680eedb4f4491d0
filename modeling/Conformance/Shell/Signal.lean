import Conformance.Shell.Octets
/-!
# Signals

Signals by number, with their names and with what is said of a process that one
of them ended.
-/
namespace Conformance.Shell.Signal

def terminate : Nat := 15

/-- The greatest number of a signal. -/
def greatest : Nat := 64

/-- The first of the signals that have no fixed use, and the last one of those counted up from
it. -/
def firstReal : Nat := 34
def lastFromFirst : Nat := 49

/-- Names and descriptions of the signals up to 31. -/
def named : List (String × String) :=
  [("HUP", "Hangup"), ("INT", ""), ("QUIT", "Quit"), ("ILL", "Illegal instruction"),
    ("TRAP", "Trace/breakpoint trap"), ("ABRT", "Aborted"), ("BUS", "Bus error"),
    ("FPE", "Floating point exception"), ("KILL", "Killed"), ("USR1", "User defined signal 1"),
    ("SEGV", "Segmentation fault"), ("USR2", "User defined signal 2"), ("PIPE", ""),
    ("ALRM", "Alarm clock"), ("TERM", "Terminated"), ("16", "Stack fault"),
    ("CHLD", "Child exited"), ("CONT", "Continued"), ("STOP", "Stopped (signal)"),
    ("TSTP", "Stopped"), ("TTIN", "Stopped (tty input)"), ("TTOU", "Stopped (tty output)"),
    ("URG", "Urgent I/O condition"), ("XCPU", "CPU time limit exceeded"),
    ("XFSZ", "File size limit exceeded"), ("VTALRM", "Virtual timer expired"),
    ("PROF", "Profiling timer expired"), ("WINCH", "Window changed"), ("IO", "I/O possible"),
    ("PWR", "Power failure"), ("SYS", "Bad system call")]

def name (n : Nat) : String :=
  if n = 0 then "0"
  else
    match named[n - 1]? with
    | some (name, _) => name
    | none =>
      if n < firstReal then toString n
      else if n = firstReal then "RTMIN"
      else if n = greatest then "RTMAX"
      else if n ≤ lastFromFirst then s!"RTMIN+{n - firstReal}"
      else s!"RTMAX-{greatest - n}"

/-- What is said of a process that a signal ended, if anything. -/
def description (n : Nat) : String :=
  match named[n - 1]? with
  | some (_, description) => description
  | none => if n < firstReal then s!"Unknown signal {n}" else s!"Real-time signal {n - firstReal}"

/-- Signals that a process does not end at. -/
def isHarmless (n : Nat) : Bool :=
  [17, 18, 19, 20, 21, 22, 23, 28].contains n

/-- Signals that cannot be caught. -/
def isFinal (n : Nat) : Bool :=
  n == 9 || n == 19

def all : List Nat :=
  List.range (greatest + 1)

/-- The signal of a number or a name, whose case does not matter. -/
def ofWord? (word : Octets) : Option Nat :=
  match natural? word with
  | some n => if n ≤ greatest then some n else none
  | none => all.find? fun n => (name n).toList == word.map Char.toUpper

/-- The status of a command that a signal ended. -/
def status (n : Nat) : Nat := 128 + n

end Conformance.Shell.Signal
