import Xv6.Sysfile.File

/-
  The system calls on files and processes (`sysfile.c`,
  `proc.c`).

  A path is the string that `argstr` copied, or `none` if it
  failed. A call that sleeps until another process acts has
  not completed: it ends in `.deadlock`, as does a call that
  waits for a lock it holds itself.

  Key definitions include:
    * `create`
    * `sysOpen`
    * `sysLink`
-/

namespace Xv6.Sysfile

open Kernel (FileType ProcState)
open Fs

def NDEV : Nat := 10

def O_RDONLY : UInt32 := 0x000
def O_WRONLY : UInt32 := 0x001
def O_RDWR : UInt32 := 0x002
def O_CREATE : UInt32 := 0x200
def O_TRUNC : UInt32 := 0x400

/- The bits of `flag` are set in `omode`. -/
def has (omode flag : UInt32) : Bool := decide (omode &&& flag ≠ 0)

variable (sb : Superblock)

---- Descriptors

def setOfile (i fd : Nat) (f : Option Nat) : SysM Unit :=
  setProc i fun p => { p with ofile := Function.update p.ofile fd f }

/- The open file of a descriptor. -/
def argfd (i : Nat) (fd : Int) : SysM (Option Nat) := do
  let s ← get
  if fd < 0 ∨ fd ≥ NOFILE then pure none else pure ((s.proc i).ofile fd.toNat)

/- The lowest free descriptor is set to the file. -/
def fdalloc (i f : Nat) : SysM (Option Nat) := do
  let s ← get
  match (List.range NOFILE).find? (fun fd => ((s.proc i).ofile fd).isNone) with
  | none => pure none
  | some fd => do
    setOfile i fd (some f)
    pure (some fd)

def sysDup (i : Nat) (fd : Int) : SysM Int := do
  match ← argfd i fd with
  | none => pure (-1)
  | some f => do
    match ← fdalloc i f with
    | none => pure (-1)
    | some fd => do
      let _ ← filedup f
      pure fd

def sysRead (i : Nat) (fd : Int) (dst : Dst) (n other : Int) : SysM Int := do
  match ← argfd i fd with
  | none => pure (-1)
  | some f => fileread sb f dst n other

def sysWrite (i : Nat) (fd : Int) (src : Src) (n other : Int) : SysM Int := do
  match ← argfd i fd with
  | none => pure (-1)
  | some f => filewrite sb f src n other

def sysClose (i : Nat) (fd : Int) : SysM Int := do
  match ← argfd i fd with
  | none => pure (-1)
  | some f => do
    setOfile i fd.toNat none
    fileclose sb f
    pure 0

def sysFstat (i : Nat) (fd : Int) (copied : Bool) : SysM Int := do
  match ← argfd i fd with
  | none => pure (-1)
  | some f => filestat sb f copied

/- `copied` says whether both `copyout` succeed. -/
def sysPipe (i : Nat) (page : Option Nat) (copied : Bool) : SysM Int := do
  match ← pipealloc sb page with
  | none => pure (-1)
  | some (rf, wf) => do
    match ← fdalloc i rf with
    | none => do
      fileclose sb rf
      fileclose sb wf
      pure (-1)
    | some fd0 => do
      match ← fdalloc i wf with
      | none => do
        setOfile i fd0 none
        fileclose sb rf
        fileclose sb wf
        pure (-1)
      | some fd1 =>
        if copied = false then do
          setOfile i fd0 none
          setOfile i fd1 none
          fileclose sb rf
          fileclose sb wf
          pure (-1)
        else
          pure 0

---- Paths

/- The slot of the current directory. -/
def cwd (i : Nat) : SysM Nat := do
  let s ← get
  pure ((s.proc i).cwd.getD 0)

/- The path `new` becomes a link to the inode of `old`. -/
def linkNew (cwd ip : Nat) (new : List UInt8) : FsM Int := do
  match ← nameiparent sb cwd new with
  | none => pure (-1)
  | some (dp, name) => do
    ilock sb dp
    let s ← get
    -- Both inodes are on the one device.
    let r ← dirlink sb dp name (s.inode ip).inum
    iunlockput sb dp
    pure r

def sysLink (i : Nat) (old new : Option (List UInt8)) : SysM Int := do
  match old, new with
  | some old, some new => do
    let cwd ← cwd i
    fs beginOp
    match ← fs (namei sb cwd old) with
    | none => do
      fs endOp
      pure (-1)
    | some ip => do
      fs (ilock sb ip)
      let s ← get
      if (s.fs.inode ip).copy.type = T_DIR then do
        fs (iunlockput sb ip)
        fs endOp
        pure (-1)
      else do
        fs (setFields sb ip fun d =>
          { d with nlink := d.nlink + 1 })
        fs (iunlock ip)
        let r ← fs (linkNew sb cwd ip new)
        if r < 0 then do
          fs (ilock sb ip)
          fs (setFields sb ip fun d =>
            { d with nlink := d.nlink - 1 })
          fs (iunlockput sb ip)
          fs endOp
          pure (-1)
        else do
          fs (iput sb ip)
          fs endOp
          pure 0
  | _, _ => pure (-1)

/- No entry after the first two is in use. -/
def isdirempty (k : Nat) : FsM Bool := do
  let s ← get
  let found ← scan sb k .isdiremptyReadi (fun de => decide (de.inum ≠ 0)) (s.rounds k) (2 * DIRENT)
  pure found.isNone

/- `ip->nlink < 1` of a `short`. -/
def nlinkBelowOne (d : Dinode) : Bool := decide (d.nlink.toInt16 < 1)

/- Clear the entry at `off` of `dp`, which names `ip`. -/
def clearEntry (dp ip off : Nat) : FsM Unit := do
  let r ← onIp dp (writei sb (.kernel Dirent.zero.bytes) (UInt32.ofNat off) (UInt32.ofNat DIRENT))
  if r ≠ DIRENT then
    throw .unlinkWritei
  else do
    let s ← get
    if (s.inode ip).copy.type = T_DIR then
      setFields sb dp fun d => { d with nlink := d.nlink - 1 }
    iunlockput sb dp
    setFields sb ip fun d => { d with nlink := d.nlink - 1 }
    iunlockput sb ip

/- `sys_unlink` in the directory `dp`, which is locked. -/
def unlinkIn (dp : Nat) (name : List UInt8) : FsM Int := do
  if namecmp name dot = 0 ∨ namecmp name dotdot = 0 then do
    iunlockput sb dp
    pure (-1)
  else do
    match ← dirlookup sb dp name with
    | none => do
      iunlockput sb dp
      pure (-1)
    | some (ip, off) => do
      ilock sb ip
      let s ← get
      if nlinkBelowOne (s.inode ip).copy = true then
        throw .unlinkNlink
      else do
        let full ←
          if (s.inode ip).copy.type = T_DIR then do
            let empty ← isdirempty sb ip
            pure (!empty)
          else
            pure false
        if full = true then do
          iunlockput sb ip
          iunlockput sb dp
          pure (-1)
        else do
          clearEntry sb dp ip off
          pure 0

def sysUnlink (i : Nat) (path : Option (List UInt8)) : SysM Int := do
  match path with
  | none => pure (-1)
  | some path => do
    let cwd ← cwd i
    fs beginOp
    match ← fs (nameiparent sb cwd path) with
    | none => do
      fs endOp
      pure (-1)
    | some (dp, name) => do
      fs (ilock sb dp)
      let r ← fs (unlinkIn sb dp name)
      fs endOp
      pure r

/- The entries of a new inode: -1 if one cannot be made. -/
def enterNew (dp ip : Nat) (name : List UInt8) (type : UInt16) : FsM Int := do
  let s ← get
  let r ←
    if type = T_DIR then do
      let r ← dirlink sb ip dot (s.inode ip).inum
      if r < 0 then pure r else dirlink sb ip dotdot (s.inode dp).inum
    else
      pure 0
  if r < 0 then pure r else dirlink sb dp name (s.inode ip).inum

/- `create` in the directory `dp`, which is locked. -/
def createIn (dp : Nat) (name : List UInt8) (type major minor : UInt16) :
    FsM (Option Nat) := do
  match ← dirlookup sb dp name with
  | some (ip, _) => do
    iunlockput sb dp
    ilock sb ip
    let s ← get
    if type = T_FILE ∧ ((s.inode ip).copy.type = T_FILE ∨ (s.inode ip).copy.type = T_DEVICE) then
      pure (some ip)
    else do
      iunlockput sb ip
      pure none
  | none => do
    match ← ialloc sb type with
    | none => do
      iunlockput sb dp
      pure none
    | some ip => do
      ilock sb ip
      setFields sb ip fun d => { d with major := major, minor := minor, nlink := 1 }
      let r ← enterNew sb dp ip name type
      if r < 0 then do
        setFields sb ip fun d => { d with nlink := 0 }
        iunlockput sb ip
        iunlockput sb dp
        pure none
      else do
        if type = T_DIR then
          setFields sb dp fun d => { d with nlink := d.nlink + 1 }
        iunlockput sb dp
        pure (some ip)

/- The inode of a new or an old file, locked. -/
def create (cwd : Nat) (path : List UInt8) (type major minor : UInt16) :
    FsM (Option Nat) := do
  match ← nameiparent sb cwd path with
  | none => pure none
  | some (dp, name) => do
    ilock sb dp
    createIn sb dp name type major minor

/- The inode that `sys_open` opens, locked. -/
def openInode (cwd : Nat) (path : List UInt8) (omode : UInt32) :
    FsM (Option Nat) := do
  let found ←
    if has omode O_CREATE = true then
      create sb cwd path T_FILE 0 0
    else do
      match ← namei sb cwd path with
      | none => pure none
      | some ip => do
        ilock sb ip
        let s ← get
        if (s.inode ip).copy.type = T_DIR ∧ omode ≠ O_RDONLY then do
          iunlockput sb ip
          pure none
        else
          pure (some ip)
  match found with
  | none => pure none
  | some ip => do
    let s ← get
    let d := (s.inode ip).copy
    -- A negative `short` is at least `NDEV` as well.
    if d.type = T_DEVICE ∧ NDEV ≤ d.major.toNat then do
      iunlockput sb ip
      pure none
    else
      pure (some ip)

/- The file of an opened inode. -/
def opened (file : File) (ip : Nat) (d : Dinode) (omode : UInt32) : File :=
  let file :=
    if d.type = T_DEVICE then
      { file with type := .device, major := d.major }
    else
      { file with type := .inode, off := 0 }
  { file with
    ip := ip
    readable := !has omode O_WRONLY
    writable := has omode O_WRONLY || has omode O_RDWR }

/- The end of `sys_open` when a table is full. -/
def openFail (ip : Nat) (f : Option Nat) : SysM Int := do
  match f with
  | none => pure ()
  | some f => fileclose sb f
  fs (iunlockput sb ip)
  fs endOp
  pure (-1)

def sysOpen (i : Nat) (path : Option (List UInt8)) (omode : UInt32) :
    SysM Int := do
  match path with
  | none => pure (-1)
  | some path => do
    let cwd ← cwd i
    fs beginOp
    match ← fs (openInode sb cwd path omode) with
    | none => do
      fs endOp
      pure (-1)
    | some ip => do
      match ← filealloc with
      | none => openFail sb ip none
      | some f => do
        match ← fdalloc i f with
        | none => openFail sb ip (some f)
        | some fd => do
          let s ← get
          let d := (s.fs.inode ip).copy
          setFile f fun file => opened file ip d omode
          if has omode O_TRUNC = true ∧ d.type = T_FILE then
            fs (onIp ip (itrunc sb))
          fs (iunlock ip)
          fs endOp
          pure fd

/- `sys_mkdir` and `sys_mknod`. -/
def sysCreate (i : Nat) (path : Option (List UInt8)) (type major minor : UInt16) :
    SysM Int := do
  let cwd ← cwd i
  fs beginOp
  match path with
  | none => do
    fs endOp
    pure (-1)
  | some path => do
    match ← fs (create sb cwd path type major minor) with
    | none => do
      fs endOp
      pure (-1)
    | some ip => do
      fs (iunlockput sb ip)
      fs endOp
      pure 0

def sysMkdir (i : Nat) (path : Option (List UInt8)) : SysM Int :=
  sysCreate sb i path T_DIR 0 0

def sysMknod (i : Nat) (path : Option (List UInt8)) (major minor : UInt16) :
    SysM Int := sysCreate sb i path T_DEVICE major minor

/- The inode of a directory, not locked. -/
def findDir (cwd : Nat) (path : List UInt8) : FsM (Option Nat) := do
  match ← namei sb cwd path with
  | none => pure none
  | some ip => do
    ilock sb ip
    let s ← get
    if (s.inode ip).copy.type ≠ T_DIR then do
      iunlockput sb ip
      pure none
    else do
      iunlock ip
      pure (some ip)

def sysChdir (i : Nat) (path : Option (List UInt8)) : SysM Int := do
  let old ← cwd i
  fs beginOp
  match path with
  | none => do
    fs endOp
    pure (-1)
  | some path => do
    match ← fs (findDir sb old path) with
    | none => do
      fs endOp
      pure (-1)
    | some ip => do
      fs (iput sb old)
      fs endOp
      setProc i fun p => { p with cwd := some ip }
      pure 0

/- The calls of `readi` that `exec` makes. -/
def readAll (k : Nat) : List (UInt32 × UInt32) → FsM Unit
  | [] => pure ()
  | r :: rs => do
    let _ ← onIp k (readi sb .kernel r.1 r.2)
    readAll k rs

/- The part of `exec` on the file system. The image, if the rest goes well, gives the result. -/
def exec (i : Nat) (path : Option (List UInt8)) (reads : List (UInt32 × UInt32))
    (image : Option Nat) : SysM Int := do
  match path with
  | none => pure (-1)
  | some path => do
    let cwd ← cwd i
    fs beginOp
    match ← fs (namei sb cwd path) with
    | none => do
      fs endOp
      pure (-1)
    | some ip => do
      fs (ilock sb ip)
      fs (readAll sb ip reads)
      fs (iunlockput sb ip)
      fs endOp
      match image with
      | none => pure (-1)
      | some argc => pure argc

---- Processes

/- The loop of `fork` over the open files. -/
def dupFiles (i np : Nat) : List Nat → SysM Unit
  | [] => pure ()
  | fd :: fds => do
    let s ← get
    match (s.proc i).ofile fd with
    | none => pure ()
    | some f => do
      let f ← filedup f
      setOfile np fd (some f)
    dupFiles i np fds

/-
  `room` says whether there is memory for the child. The
  result is the slot of the child instead of its pid.
-/
def fork (i : Nat) (room : Bool) : SysM Int := do
  let s ← get
  match (List.range NPROC).find? (fun j => decide ((s.proc j).state = .unused)) with
  | none => pure (-1)
  | some np =>
    if room = false then
      pure (-1)
    else do
      setProc np fun p => { p with state := .used }
      dupFiles i np (List.range NOFILE)
      let old ← cwd i
      let ip ← fs (idup old)
      setProc np fun p =>
        { p with
          cwd := some ip
          parent := some i
          state := .runnable }
      pure np

/- The loop of `exit` over the open files. -/
def closeFiles (i : Nat) : List Nat → SysM Unit
  | [] => pure ()
  | fd :: fds => do
    let s ← get
    match (s.proc i).ofile fd with
    | none => pure ()
    | some f => do
      fileclose sb f
      setOfile i fd none
    closeFiles i fds

def exit (i : Nat) : SysM Int := do
  let s ← get
  if i = s.initproc then
    throw .initExiting
  else do
    closeFiles sb i (List.range NOFILE)
    let old ← cwd i
    fs beginOp
    fs (iput sb old)
    fs endOp
    setProc i fun p => { p with cwd := none }
    modify fun s =>
      { s with
        proc := fun j =>
          if (s.proc j).parent = some i then
            { s.proc j with parent := some s.initproc }
          else
            s.proc j }
    setProc i fun p => { p with state := .zombie }
    pure 0

/-
  `copied` says whether the status can be copied out. The
  result is the slot of the child instead of its pid.
-/
def wait (i : Nat) (copied killed : Bool) : SysM Int := do
  let s ← get
  match (List.range NPROC).find? (fun j =>
      decide ((s.proc j).parent = some i ∧ (s.proc j).state = .zombie)) with
  | some j =>
    if copied = false then
      pure (-1)
    else do
      setProc j fun p => { p with state := .unused, parent := none }
      pure j
  | none =>
    if killed = true ∨ ∀ j ∈ List.range NPROC, (s.proc j).parent ≠ some i then
      pure (-1)
    else
      throw .deadlock

---- Runs

inductive Call where
  | dup (fd : Int)
  | read (fd : Int) (dst : Dst) (n other : Int)
  | write (fd : Int) (src : Src) (n other : Int)
  | close (fd : Int)
  | fstat (fd : Int) (copied : Bool)
  | pipe (page : Option Nat) (copied : Bool)
  | link (old new : Option (List UInt8))
  | unlink (path : Option (List UInt8))
  | open (path : Option (List UInt8)) (omode : UInt32)
  | mkdir (path : Option (List UInt8))
  | mknod (path : Option (List UInt8)) (major minor : UInt16)
  | chdir (path : Option (List UInt8))
  | exec (path : Option (List UInt8)) (reads : List (UInt32 × UInt32)) (image : Option Nat)
  | fork (room : Bool)
  | exit
  | wait (copied killed : Bool)

/- A call of process `i`. -/
def syscall (i : Nat) : Call → SysM Int
  | .dup fd => sysDup i fd
  | .read fd dst n other => sysRead sb i fd dst n other
  | .write fd src n other => sysWrite sb i fd src n other
  | .close fd => sysClose sb i fd
  | .fstat fd copied => sysFstat sb i fd copied
  | .pipe page copied => sysPipe sb i page copied
  | .link old new => sysLink sb i old new
  | .unlink path => sysUnlink sb i path
  | .open path omode => sysOpen sb i path omode
  | .mkdir path => sysMkdir sb i path
  | .mknod path major minor => sysMknod sb i path major minor
  | .chdir path => sysChdir sb i path
  | .exec path reads image => exec sb i path reads image
  | .fork room => fork i room
  | .exit => exit sb i
  | .wait copied killed => wait i copied killed

/- A process that can make calls. -/
def State.Live (s : State) (i : Nat) : Prop := i < NPROC ∧ (s.proc i).state = .runnable

instance
    (s : State) (i : Nat) :
    Decidable (s.Live i) := by
  unfold State.Live
  infer_instance

/- The first process, with the root as its directory and no open files. -/
def boot (disk : Disk) : State where
  fs :=
    { disk := disk
      inode := fun k =>
        { inum := if k = 0 then ROOTINO else 0
          ref := if k = 0 then 1 else 0
          locked := false
          valid := false
          copy := Dinode.zero }
      outstanding := 0 }
  file := fun _ =>
    { type := .none
      ref := 0
      readable := false
      writable := false
      pipe := 0
      ip := 0
      off := 0
      major := 0 }
  pipe := fun _ => none
  proc := fun i =>
    { state := if i = 0 then .runnable else .unused
      parent := none
      ofile := fun _ => none
      cwd := if i = 0 then some 0 else none }
  initproc := 0

/- The states after any sequence of completed calls. -/
inductive Reachable (sb : Superblock) (init : State) : State → Prop where
  | init : Reachable sb init init
  | call {s s' : State}
      {i : Nat} {c : Call} {r : Int} (hReach : Reachable sb init s) (hLive : s.Live i)
      (hRun : syscall sb i c s = .ok (r, s')) :
      Reachable sb init s'

end Xv6.Sysfile
