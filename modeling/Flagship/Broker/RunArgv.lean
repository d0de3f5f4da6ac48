import Flagship.Lib.Text

namespace Flagship.Broker
open Lib

inductive ErrorCode
  | forbidden
  | badRequest
  deriving DecidableEq

structure PrivdError where
  code : ErrorCode
  message : Text
  deriving DecidableEq

def forbidden (message : Text) : PrivdError := ⟨.forbidden,message⟩

/-- The flags of `docker run` that take no value. -/
def runBoolFlags : List Text :=
  ["detach","interactive","tty","rm","init","privileged","publish-all","read-only",
    "no-healthcheck","oom-kill-disable","sig-proxy","disable-content-trust","quiet",
    "use-api-socket"].map String.toList

/-- The flags of `docker run` that take a value. -/
def runValueFlags : List Text :=
  ["attach","add-host","annotation","blkio-weight","blkio-weight-device","cap-add","cap-drop",
    "cgroup-parent","cgroupns","cidfile","cpu-count","cpu-percent","cpu-period","cpu-quota",
    "cpu-rt-period","cpu-rt-runtime","cpu-shares","cpus","cpuset-cpus","cpuset-mems",
    "detach-keys","device","device-cgroup-rule","device-read-bps","device-read-iops",
    "device-write-bps","device-write-iops","dns","dns-option","dns-search","domainname",
    "entrypoint","env","env-file","expose","gpus","group-add","health-cmd","health-interval",
    "health-retries","health-start-interval","health-start-period","health-timeout","hostname",
    "io-maxbandwidth","io-maxiops","ip","ip6","ipc","isolation","kernel-memory","label",
    "label-file","link","link-local-ip","log-driver","log-opt","mac-address","memory",
    "memory-reservation","memory-swap","memory-swappiness","mount","name","network",
    "network-alias","oom-score-adj","pid","pids-limit","platform","publish","pull","restart",
    "runtime","security-opt","shm-size","stop-signal","stop-timeout","storage-opt","sysctl",
    "tmpfs","ulimit","user","userns","uts","volume","volume-driver","volumes-from",
    "workdir"].map String.toList

/-- A name that matches `^[a-z0-9][a-z0-9-]{0,63}$`. -/
def longFlagName (s : Text) : Bool :=
  let alnum := fun c : Char => c.isDigit || c.isLower
  decide (s.length ≤ 64) && s.head?.any alnum && s.all fun c => alnum c || c == '-'

/-- Second names the CLI gives a flag. -/
def runFlagAlias (spelled : Text) : Text :=
  if spelled = "net".toList then "network".toList
  else if spelled = "net-alias".toList then "network-alias".toList
  else if spelled = "dns-opt".toList then "dns-option".toList
  else spelled

def runShorthand : Char → Option Text
  | 'd' => some "detach".toList
  | 'i' => some "interactive".toList
  | 't' => some "tty".toList
  | 'P' => some "publish-all".toList
  | 'q' => some "quiet".toList
  | 'a' => some "attach".toList
  | 'c' => some "cpu-shares".toList
  | 'e' => some "env".toList
  | 'h' => some "hostname".toList
  | 'l' => some "label".toList
  | 'm' => some "memory".toList
  | 'p' => some "publish".toList
  | 'u' => some "user".toList
  | 'v' => some "volume".toList
  | 'w' => some "workdir".toList
  | _ => none

inductive FlagKind
  | bool
  | value
  deriving DecidableEq

def runFlag (name : Text) : Option FlagKind :=
  if name ∈ runBoolFlags then some .bool
  else if name ∈ runValueFlags then some .value
  else none

/-- One parsed run flag: its long name, aliases resolved, and its value. -/
structure RunFlag where
  name : Text
  value : Text
  deriving DecidableEq

structure ParsedRun where
  flags : List RunFlag
  image : Text
  command : List Text
  deriving DecidableEq

def boolValue (spelled v : Text) : Except PrivdError Text :=
  if v = "true".toList ∨ v = "false".toList then .ok v
  else .error (forbidden (spelled ++ " takes true or false".toList))

/-- The text before the first `=`, and what is attached after it. -/
def cutAtEquals (body : Text) : Text × Option Text :=
  (body.takeWhile (· != '='),match body.dropWhile (· != '=') with
    | [] => none
    | _ :: attached => some attached)

/-- A group of shorthands: bools until one that takes a value, which takes the rest. With
nothing left of the group that one waits for the next argument. -/
def shortGroup : Text → Except PrivdError (List RunFlag × Option (Char × Text))
  | [] => .ok ([],none)
  | c :: rest =>
    match runShorthand c with
    | none => .error (forbidden ('-' :: c :: " is not a flag the broker knows".toList))
    | some name =>
      let kind := (runFlag name).getD .value
      if 1 < rest.length && rest.head? = some '=' then
        let v := rest.drop 1
        if kind = .bool then
          match boolValue ['-',c] v with
          | .error e => .error e
          | .ok v => .ok ([⟨name,v⟩],none)
        else .ok ([⟨name,v⟩],none)
      else if kind = .bool then
        match shortGroup rest with
        | .error e => .error e
        | .ok (flags,waits) => .ok (⟨name,"true".toList⟩ :: flags,waits)
      else if rest.isEmpty then .ok ([],some (c,name))
      else .ok ([⟨name,rest⟩],none)

/-- The flags of a command line, and the arguments from the image on. -/
def parseFlags (flags : List RunFlag) : List Text → Except PrivdError (List RunFlag × List Text)
  | [] => .ok (flags,[])
  | x :: rest =>
    if x = "--".toList then .ok (flags,rest)
    else if x.head? ≠ some '-' ∨ x = "-".toList then .ok (flags,x :: rest)
    else if "--".toList <+: x then
      let (spelled,attached) := cutAtEquals (x.drop 2)
      if longFlagName spelled = false then
        .error (forbidden "a flag the broker cannot read is not allowed".toList)
      else
        let name := runFlagAlias spelled
        match runFlag name,attached with
        | none,_ => .error (forbidden ("--".toList ++ spelled ++
            " is not a flag the broker knows".toList))
        | some .bool,some v =>
          match boolValue ("--".toList ++ spelled) v with
          | .error e => .error e
          | .ok v => parseFlags (flags ++ [⟨name,v⟩]) rest
        | some .bool,none => parseFlags (flags ++ [⟨name,"true".toList⟩]) rest
        | some .value,some v => parseFlags (flags ++ [⟨name,v⟩]) rest
        | some .value,none =>
          match rest with
          | [] => .error (forbidden ("--".toList ++ spelled ++ " needs a value".toList))
          | v :: rest => parseFlags (flags ++ [⟨name,v⟩]) rest
    else
      match shortGroup (x.drop 1) with
      | .error e => .error e
      | .ok (group,none) => parseFlags (flags ++ group) rest
      | .ok (group,some (c,name)) =>
        match rest with
        | [] => .error (forbidden ('-' :: c :: " needs a value".toList))
        | v :: rest => parseFlags (flags ++ group ++ [⟨name,v⟩]) rest

/-- A `docker run` line as the CLI parses it; what cannot be classified is refused. -/
def parseRunArgv (argv : List Text) : Except PrivdError ParsedRun :=
  match parseFlags [] (argv.drop 1) with
  | .error e => .error e
  | .ok (_,[]) => .error (forbidden "name an image".toList)
  | .ok (flags,image :: command) => .ok ⟨flags,image,command⟩

end Flagship.Broker
