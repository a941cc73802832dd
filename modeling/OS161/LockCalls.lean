import OS161.LockOrder

/-!
# The locks that system calls take

For every function the operations on sleep locks it makes, as a function of how
its tests come out: one case for each of its returns. Which descriptor, file or
process a call meets is not restricted. Files are those of the simple file
system, whose operations take `vfs_biglock`, a recursive lock.
-/

set_option autoImplicit false

namespace OS161.LockCalls

open OS161.LockOrder

inductive Lock where
  | pMutex (p : ℕ)
  | gptLock
  | localTable (p : ℕ)
  | desc (d : ℕ)
  | file (f : ℕ)
  | globalTable
  | biglock
  deriving DecidableEq

/-- The order in which they are taken. -/
def level : Lock → ℕ
  | .pMutex _ => 0
  | .gptLock => 1
  | .localTable _ => 2
  | .desc _ => 3
  | .file _ => 4
  | .globalTable => 5
  | .biglock => 6

def recursive : Lock → Bool
  | .biglock => true
  | _ => false

abbrev Ops := List (Op Lock)

/-! The simple file system. -/

inductive Itrunc where
  | readFails | writeFails | done

def sfsItrunc : Itrunc → Ops
  | .readFails => [.enter .biglock, .leave .biglock]
  | .writeFails => [.enter .biglock, .leave .biglock]
  | .done => [.enter .biglock, .leave .biglock]

/-- A file that is not linked any more is truncated before it is written back. -/
inductive Reclaim where
  | busy
  | truncFails (i : Itrunc)
  | syncFails (erased : Option Itrunc)
  | done (erased : Option Itrunc)

def sfsReclaim : Reclaim → Ops
  | .busy => [.enter .biglock, .leave .biglock]
  | .truncFails i => .enter .biglock :: sfsItrunc i ++ [.leave .biglock]
  | .syncFails erased => .enter .biglock :: erased.elim [] sfsItrunc ++ [.leave .biglock]
  | .done erased => .enter .biglock :: erased.elim [] sfsItrunc ++ [.leave .biglock]

/-- `VOP_DECREF`: only the last reference is passed to `VOP_RECLAIM`. -/
def vnodeDecref (last : Option Reclaim) : Ops := last.elim [] sfsReclaim

def vfsClose (last : Option Reclaim) : Ops := vnodeDecref last

def sfsRead : Ops := [.enter .biglock, .leave .biglock]

def sfsWrite : Ops := [.enter .biglock, .leave .biglock]

/-- Directories refuse both. -/
inductive Vop where
  | directory | file

def vopRead : Vop → Ops
  | .directory => []
  | .file => sfsRead

def vopWrite : Vop → Ops
  | .directory => []
  | .file => sfsWrite

inductive Gettype where
  | file | directory

def sfsGettype : Gettype → Ops
  | .file => [.enter .biglock, .leave .biglock]
  | .directory => [.enter .biglock, .leave .biglock]

def sfsStat (g : Gettype) : Ops := sfsGettype g

inductive Getroot where
  | loadFails | notDirectory | found

def sfsGetroot : Getroot → Ops
  | .loadFails => [.enter .biglock, .leave .biglock]
  | .notDirectory => [.enter .biglock, .leave .biglock]
  | .found => [.enter .biglock, .leave .biglock]

inductive Creat where
  | findFails | taken | loadFails | loaded | makeFails
  | linkFails (last : Option Reclaim)
  | created

def sfsCreat : Creat → Ops
  | .findFails => [.enter .biglock, .leave .biglock]
  | .taken => [.enter .biglock, .leave .biglock]
  | .loadFails => [.enter .biglock, .leave .biglock]
  | .loaded => [.enter .biglock, .leave .biglock]
  | .makeFails => [.enter .biglock, .leave .biglock]
  | .linkFails last => .enter .biglock :: vnodeDecref last ++ [.leave .biglock]
  | .created => [.enter .biglock, .leave .biglock]

inductive Lookparent where
  | notDirectory | tooLong | found

def sfsLookparent : Lookparent → Ops
  | .notDirectory => [.enter .biglock, .leave .biglock]
  | .tooLong => [.enter .biglock, .leave .biglock]
  | .found => [.enter .biglock, .leave .biglock]

inductive Lookup where
  | notDirectory | fails | found

def sfsLookup : Lookup → Ops
  | .notDirectory => [.enter .biglock, .leave .biglock]
  | .fails => [.enter .biglock, .leave .biglock]
  | .found => [.enter .biglock, .leave .biglock]

/-! Names and opening. Where a vnode's operation only fails, or a device answers,
the outcome of the file system's operation is `none`. -/

inductive Device where
  | empty
  | current
  | device (root : Option Getroot)
  | boot
  | root (g : Getroot) (last : Option Reclaim)

def getdevice : Device → Ops
  | .empty => []
  | .current => []
  | .device root => root.elim [] sfsGetroot
  | .boot => []
  | .root g last => sfsGetroot g ++ vnodeDecref last

inductive VfsLookparent where
  | noDevice (d : Device)
  | noName (d : Device) (last : Option Reclaim)
  | looked (d : Device) (l : Option Lookparent) (last : Option Reclaim)

def vfsLookparent : VfsLookparent → Ops
  | .noDevice d => .enter .biglock :: getdevice d ++ [.leave .biglock]
  | .noName d last => .enter .biglock :: (getdevice d ++ vnodeDecref last) ++ [.leave .biglock]
  | .looked d l last =>
    .enter .biglock :: (getdevice d ++ l.elim [] sfsLookparent ++ vnodeDecref last) ++ [.leave .biglock]

inductive VfsLookup where
  | noDevice (d : Device)
  | device (d : Device)
  | looked (d : Device) (l : Option Lookup) (last : Option Reclaim)

def vfsLookup : VfsLookup → Ops
  | .noDevice d => .enter .biglock :: getdevice d ++ [.leave .biglock]
  | .device d => .enter .biglock :: getdevice d ++ [.leave .biglock]
  | .looked d l last =>
    .enter .biglock :: (getdevice d ++ l.elim [] sfsLookup ++ vnodeDecref last) ++ [.leave .biglock]

/-- The first half of `vfs_open`. -/
inductive Find where
  | noParent (l : VfsLookparent)
  | creat (l : VfsLookparent) (c : Option Creat) (last : Option Reclaim)
  | lookup (l : VfsLookup)

def find : Find → Ops
  | .noParent l => vfsLookparent l
  | .creat l c last => vfsLookparent l ++ c.elim [] sfsCreat ++ vnodeDecref last
  | .lookup l => vfsLookup l

inductive VfsOpen where
  | badMode
  | notFound (f : Find)
  | refused (f : Find) (last : Option Reclaim)
  | readOnly (f : Find) (last : Option Reclaim)
  | truncFails (f : Find) (i : Option Itrunc) (last : Option Reclaim)
  | opened (f : Find) (i : Option Itrunc)

def vfsOpen : VfsOpen → Ops
  | .badMode => []
  | .notFound f => find f
  | .refused f last => find f ++ vnodeDecref last
  | .readOnly f last => find f ++ vnodeDecref last
  | .truncFails f i last => find f ++ i.elim [] sfsItrunc ++ vnodeDecref last
  | .opened f i => find f ++ i.elim [] sfsItrunc

/-! The file tables. -/

inductive FileDestroy where
  | standard
  | last (r : Option Reclaim)
  | shared (r : Option Reclaim)

def fileDestroy : FileDestroy → Ops
  | .standard => []
  | .last r => .acquire .globalTable :: vfsClose r ++ [.release .globalTable]
  | .shared r => .acquire .globalTable :: vfsClose r ++ [.release .globalTable]

inductive FileDescDestroy where
  | standard
  | noFile
  | file (d : FileDestroy)

def fileDescDestroy : FileDescDestroy → Ops
  | .standard => []
  | .noFile => []
  | .file d => fileDestroy d

inductive LocalTableAddFile where
  | full | noMemory | added | noSlot

def localTableAddFile (p : ℕ) : LocalTableAddFile → Ops
  | .full => [.acquire (.localTable p), .release (.localTable p)]
  | .noMemory => [.acquire (.localTable p), .release (.localTable p)]
  | .added => [.acquire (.localTable p), .release (.localTable p)]
  | .noSlot => [.acquire (.localTable p), .release (.localTable p)]

inductive LocalTableGet where
  | outOfRange | got

def localTableGet (p : ℕ) : LocalTableGet → Ops
  | .outOfRange => []
  | .got => [.acquire (.localTable p), .release (.localTable p)]

inductive NonLockCloseFile where
  | outOfRange
  | empty
  | closed (d : FileDescDestroy)

def nonLockCloseFile : NonLockCloseFile → Ops
  | .outOfRange => []
  | .empty => []
  | .closed d => fileDescDestroy d

def localTableCloseFile (p : ℕ) (c : NonLockCloseFile) : Ops :=
  .acquire (.localTable p) :: nonLockCloseFile c ++ [.release (.localTable p)]

/-- One outcome for each slot that is not empty. -/
def localTableCloseAll (p : ℕ) (slots : List FileDescDestroy) : Ops :=
  .acquire (.localTable p) :: slots.flatMap fileDescDestroy ++ [.release (.localTable p)]

def localTableDestroy (p : ℕ) (slots : List FileDescDestroy) : Ops := localTableCloseAll p slots

def localTableCopy (src : ℕ) : Ops := [.acquire (.localTable src), .release (.localTable src)]

inductive LocalTableDup2 where
  | same
  | noOld
  | closeFails (c : NonLockCloseFile)
  | done (c : Option NonLockCloseFile)

def localTableDup2 (p : ℕ) : LocalTableDup2 → Ops
  | .same => []
  | .noOld => [.acquire (.localTable p), .release (.localTable p)]
  | .closeFails c => .acquire (.localTable p) :: nonLockCloseFile c ++ [.release (.localTable p)]
  | .done c => .acquire (.localTable p) :: c.elim [] nonLockCloseFile ++ [.release (.localTable p)]

inductive GlobalTableOpenFile where
  | notOpened (v : VfsOpen)
  | full (v : VfsOpen)
  | found (v : VfsOpen)
  | noMemory (v : VfsOpen)
  | created (v : VfsOpen)

def globalTableOpenFile : GlobalTableOpenFile → Ops
  | .notOpened v => vfsOpen v
  | .full v => vfsOpen v ++ [.acquire .globalTable, .release .globalTable]
  | .found v => vfsOpen v ++ [.acquire .globalTable, .release .globalTable]
  | .noMemory v => vfsOpen v ++ [.acquire .globalTable, .release .globalTable]
  | .created v => vfsOpen v ++ [.acquire .globalTable, .release .globalTable]

/-! Processes. -/

inductive ProcCreate where
  | tooMany | noMemory | noTable
  | noMutex (slots : List FileDescDestroy)
  | noEntry (slots : List FileDescDestroy)
  | created

def procCreate (q : ℕ) : ProcCreate → Ops
  | .tooMany => []
  | .noMemory => []
  | .noTable => []
  | .noMutex slots => localTableDestroy q slots
  | .noEntry slots => .acquire .gptLock :: localTableDestroy q slots ++ [.release .gptLock]
  | .created => [.acquire .gptLock, .release .gptLock]

structure ProcDestroy where
  slots : List FileDescDestroy
  cwd : Option Reclaim

def procDestroy (q : ℕ) (d : ProcDestroy) : Ops := localTableDestroy q d.slots ++ vnodeDecref d.cwd

/-! The system calls, of process `p`. -/

inductive SysOpen where
  | badPointer | badName
  | notOpened (g : GlobalTableOpenFile)
  | notAdded (g : GlobalTableOpenFile) (a : LocalTableAddFile) (d : FileDestroy)
  | opened (g : GlobalTableOpenFile) (a : LocalTableAddFile)

def sysOpen (p : ℕ) : SysOpen → Ops
  | .badPointer => []
  | .badName => []
  | .notOpened g => globalTableOpenFile g
  | .notAdded g a d => globalTableOpenFile g ++ localTableAddFile p a ++ fileDestroy d
  | .opened g a => globalTableOpenFile g ++ localTableAddFile p a

inductive SysClose where
  | outOfRange
  | closed (c : NonLockCloseFile)

def sysClose (p : ℕ) : SysClose → Ops
  | .outOfRange => []
  | .closed c => localTableCloseFile p c

inductive Disk where
  | wrongMode
  | fails (f : ℕ) (v : Vop)
  | done (f : ℕ) (v : Vop)

def readFromDisk (d : ℕ) : Disk → Ops
  | .wrongMode => [.acquire (.desc d), .release (.desc d)]
  | .fails f v =>
    .acquire (.desc d) :: (.acquire (.file f) :: vopRead v ++ [.release (.file f)]) ++ [.release (.desc d)]
  | .done f v =>
    .acquire (.desc d) :: (.acquire (.file f) :: vopRead v ++ [.release (.file f)]) ++ [.release (.desc d)]

def writeToDisk (d : ℕ) : Disk → Ops
  | .wrongMode => [.acquire (.desc d), .release (.desc d)]
  | .fails f v =>
    .acquire (.desc d) :: (.acquire (.file f) :: vopWrite v ++ [.release (.file f)]) ++ [.release (.desc d)]
  | .done f v =>
    .acquire (.desc d) :: (.acquire (.file f) :: vopWrite v ++ [.release (.file f)]) ++ [.release (.desc d)]

inductive Console where
  | noMemory | copyFails | done

/-- `read_stdin` and `write_std`. -/
def console (d f : ℕ) : Console → Ops
  | .noMemory => [.acquire (.desc d), .acquire (.file f), .release (.file f), .release (.desc d)]
  | .copyFails => [.acquire (.desc d), .acquire (.file f), .release (.file f), .release (.desc d)]
  | .done => [.acquire (.desc d), .acquire (.file f), .release (.file f), .release (.desc d)]

inductive Transfer where
  | badPointer
  | noDesc (g : LocalTableGet)
  | console (g : LocalTableGet) (d f : ℕ) (c : Console)
  | disk (g : LocalTableGet) (d : ℕ) (o : Disk)
  | wrongConsole (g : LocalTableGet)

def sysRead (p : ℕ) : Transfer → Ops
  | .badPointer => []
  | .noDesc g => localTableGet p g
  | .console g d f c => localTableGet p g ++ console d f c
  | .disk g d o => localTableGet p g ++ readFromDisk d o
  | .wrongConsole g => localTableGet p g

def sysWrite (p : ℕ) : Transfer → Ops
  | .badPointer => []
  | .noDesc g => localTableGet p g
  | .console g d f c => localTableGet p g ++ console d f c
  | .disk g d o => localTableGet p g ++ writeToDisk d o
  | .wrongConsole g => localTableGet p g

/-- Where the end of the file is asked for, the type of its vnode. -/
inductive SysLseek where
  | noDesc (g : LocalTableGet)
  | console (g : LocalTableGet)
  | notSeekable (g : LocalTableGet) (d : ℕ)
  | statFails (g : LocalTableGet) (d : ℕ) (t : Gettype)
  | badWhence (g : LocalTableGet) (d : ℕ)
  | negative (g : LocalTableGet) (d : ℕ) (t : Option Gettype)
  | done (g : LocalTableGet) (d : ℕ) (t : Option Gettype)

def sysLseek (p : ℕ) : SysLseek → Ops
  | .noDesc g => localTableGet p g
  | .console g => localTableGet p g
  | .notSeekable g d => localTableGet p g ++ [.acquire (.desc d), .release (.desc d)]
  | .statFails g d t => localTableGet p g ++ (.acquire (.desc d) :: sfsStat t ++ [.release (.desc d)])
  | .badWhence g d => localTableGet p g ++ [.acquire (.desc d), .release (.desc d)]
  | .negative g d t => localTableGet p g ++ (.acquire (.desc d) :: t.elim [] sfsStat ++ [.release (.desc d)])
  | .done g d t => localTableGet p g ++ (.acquire (.desc d) :: t.elim [] sfsStat ++ [.release (.desc d)])

inductive SysDup2 where
  | outOfRange
  | dup (o : LocalTableDup2)

def sysDup2 (p : ℕ) : SysDup2 → Ops
  | .outOfRange => []
  | .dup o => localTableDup2 p o

/-- `q` is the new process. -/
inductive SysFork where
  | tooMany | tooManyChildren
  | notCreated (q : ℕ) (c : ProcCreate)
  | noSpace (q : ℕ) (c : ProcCreate) (d : ProcDestroy)
  | noFrame (q : ℕ) (c : ProcCreate) (d : ProcDestroy)
  | noThread (q : ℕ) (c : ProcCreate) (d : ProcDestroy)
  | forked (q : ℕ) (c : ProcCreate)

def sysFork (p : ℕ) : SysFork → Ops
  | .tooMany => []
  | .tooManyChildren => []
  | .notCreated q c => procCreate q c
  | .noSpace q c d => procCreate q c ++ (.acquire (.pMutex p) :: procDestroy q d ++ [.release (.pMutex p)])
  | .noFrame q c d =>
    procCreate q c ++ (.acquire (.pMutex p) :: (localTableCopy p ++ procDestroy q d) ++ [.release (.pMutex p)])
  | .noThread q c d =>
    procCreate q c ++ (.acquire (.pMutex p) :: (localTableCopy p ++ procDestroy q d) ++ [.release (.pMutex p)])
  | .forked q c => procCreate q c ++ (.acquire (.pMutex p) :: localTableCopy p ++ [.release (.pMutex p)])

/-- `thread_exit` destroys the process. -/
def sysExit (p : ℕ) (d : ProcDestroy) : Ops := [.acquire .gptLock, .release .gptLock] ++ procDestroy p d

inductive SysWaitpid where
  | badOptions | badPid | noEntry | notChild
  | copyFails (waited : Bool)
  | done (waited : Bool)

/-- `cv_wait` on the entry of a child that has not exited. -/
def awaitChild : Bool → Ops
  | false => [.acquire .gptLock, .release .gptLock]
  | true => [.acquire .gptLock, .release .gptLock, .pause, .acquire .gptLock, .release .gptLock]

def sysWaitpid : SysWaitpid → Ops
  | .badOptions => []
  | .badPid => []
  | .noEntry => [.acquire .gptLock, .release .gptLock]
  | .notChild => [.acquire .gptLock, .release .gptLock]
  | .copyFails waited => awaitChild waited
  | .done waited => awaitChild waited

inductive Call where
  | sysOpen (p : ℕ) (o : SysOpen)
  | sysClose (p : ℕ) (o : SysClose)
  | sysRead (p : ℕ) (o : Transfer)
  | sysWrite (p : ℕ) (o : Transfer)
  | sysLseek (p : ℕ) (o : SysLseek)
  | sysDup2 (p : ℕ) (o : SysDup2)
  | sysFork (p : ℕ) (o : SysFork)
  | sysExit (p : ℕ) (o : ProcDestroy)
  | sysWaitpid (o : SysWaitpid)

def trace : Call → Ops
  | .sysOpen p o => sysOpen p o
  | .sysClose p o => sysClose p o
  | .sysRead p o => sysRead p o
  | .sysWrite p o => sysWrite p o
  | .sysLseek p o => sysLseek p o
  | .sysDup2 p o => sysDup2 p o
  | .sysFork p o => sysFork p o
  | .sysExit p o => sysExit p o
  | .sysWaitpid o => sysWaitpid o

/-! Every piece keeps to the order. -/

/-- May run with any locks below level `n`, and leaves them as they are. -/
abbrev Above (n : ℕ) (ops : Ops) : Prop := Block level recursive (fun k => level k < n) ops

/-- May run with any locks at all. -/
abbrev Innermost (ops : Ops) : Prop := Block level recursive (fun _ => True) ops

theorem Above.mono {m n : ℕ} {ops : Ops} (h : Above m ops) (hmn : n ≤ m) : Above n ops :=
  Block.mono h (fun _ hk => lt_of_lt_of_le hk hmn)

theorem Innermost.above {ops : Ops} (h : Innermost ops) (n : ℕ) : Above n ops := Block.mono h (fun _ _ => trivial)

theorem locked_above {k : Lock} {n : ℕ} {ops : Ops} (hk : recursive k = false) (hn : n = level k)
    (h : Above (n+1) ops) : Above n (.acquire k :: ops ++ [.release k]) := by
  subst hn
  refine Block.locked hk (fun _ hj => hj) (Block.mono h ?_)
  rintro j (hj | rfl) <;> omega

theorem alone_above {k : Lock} {n : ℕ} (hk : recursive k = false) (hn : n = level k) :
    Above n [.acquire k, .release k] := locked_above hk hn Block.nil

theorem big_innermost {ops : Ops} (h : Innermost ops) :
    Innermost (.enter .biglock :: ops ++ [.leave .biglock]) := by
  refine Block.entered rfl ?_ (Block.mono h (fun _ _ => trivial))
  intro k _
  cases k <;> simp [level]

theorem big_alone : Innermost [.enter .biglock, .leave .biglock] := big_innermost Block.nil

theorem elim_innermost {α : Type} {f : α → Ops} (h : ∀ a, Innermost (f a)) (o : Option α) :
    Innermost (o.elim [] f) := by
  cases o with
  | none => exact Block.nil
  | some a => exact h a

theorem itrunc_innermost (i : Itrunc) : Innermost (sfsItrunc i) := by
  cases i <;> exact big_alone

theorem reclaim_innermost (r : Reclaim) : Innermost (sfsReclaim r) := by
  cases r with
  | busy => exact big_alone
  | truncFails i => exact big_innermost (itrunc_innermost i)
  | syncFails erased => exact big_innermost (elim_innermost itrunc_innermost erased)
  | done erased => exact big_innermost (elim_innermost itrunc_innermost erased)

theorem decref_innermost (last : Option Reclaim) : Innermost (vnodeDecref last) :=
  elim_innermost reclaim_innermost last

theorem getroot_innermost (g : Getroot) : Innermost (sfsGetroot g) := by
  cases g <;> exact big_alone

theorem creat_innermost (c : Creat) : Innermost (sfsCreat c) := by
  cases c with
  | linkFails last => exact big_innermost (decref_innermost last)
  | _ => exact big_alone

theorem lookparent_innermost (l : Lookparent) : Innermost (sfsLookparent l) := by
  cases l <;> exact big_alone

theorem lookup_innermost (l : Lookup) : Innermost (sfsLookup l) := by
  cases l <;> exact big_alone

theorem getdevice_innermost (d : Device) : Innermost (getdevice d) := by
  cases d with
  | device root => exact elim_innermost getroot_innermost root
  | root g last => exact (getroot_innermost g).append (decref_innermost last)
  | _ => exact Block.nil

theorem vfsLookparent_innermost (l : VfsLookparent) : Innermost (vfsLookparent l) := by
  cases l with
  | noDevice d => exact big_innermost (getdevice_innermost d)
  | noName d last => exact big_innermost ((getdevice_innermost d).append (decref_innermost last))
  | looked d l last =>
    exact big_innermost (((getdevice_innermost d).append (elim_innermost lookparent_innermost l)).append
      (decref_innermost last))

theorem vfsLookup_innermost (l : VfsLookup) : Innermost (vfsLookup l) := by
  cases l with
  | noDevice d => exact big_innermost (getdevice_innermost d)
  | device d => exact big_innermost (getdevice_innermost d)
  | looked d l last =>
    exact big_innermost (((getdevice_innermost d).append (elim_innermost lookup_innermost l)).append
      (decref_innermost last))

theorem find_innermost (f : Find) : Innermost (find f) := by
  cases f with
  | noParent l => exact vfsLookparent_innermost l
  | creat l c last =>
    exact ((vfsLookparent_innermost l).append (elim_innermost creat_innermost c)).append (decref_innermost last)
  | lookup l => exact vfsLookup_innermost l

theorem vfsOpen_innermost (v : VfsOpen) : Innermost (vfsOpen v) := by
  cases v with
  | badMode => exact Block.nil
  | notFound f => exact find_innermost f
  | refused f last => exact (find_innermost f).append (decref_innermost last)
  | readOnly f last => exact (find_innermost f).append (decref_innermost last)
  | truncFails f i last =>
    exact ((find_innermost f).append (elim_innermost itrunc_innermost i)).append (decref_innermost last)
  | opened f i => exact (find_innermost f).append (elim_innermost itrunc_innermost i)

theorem fileDestroy_above (d : FileDestroy) : Above 5 (fileDestroy d) := by
  cases d with
  | standard => exact Block.nil
  | last r => exact locked_above rfl rfl ((decref_innermost r).above 6)
  | shared r => exact locked_above rfl rfl ((decref_innermost r).above 6)

theorem fileDescDestroy_above (d : FileDescDestroy) : Above 5 (fileDescDestroy d) := by
  cases d with
  | file d => exact fileDestroy_above d
  | _ => exact Block.nil

theorem globalTableOpenFile_above (g : GlobalTableOpenFile) : Above 5 (globalTableOpenFile g) := by
  cases g with
  | notOpened v => exact (vfsOpen_innermost v).above 5
  | _ v => exact ((vfsOpen_innermost v).above 5).append (alone_above rfl rfl)

theorem localTableGet_above (p : ℕ) (g : LocalTableGet) : Above 2 (localTableGet p g) := by
  cases g with
  | outOfRange => exact Block.nil
  | got => exact alone_above rfl rfl

theorem localTableAddFile_above (p : ℕ) (a : LocalTableAddFile) : Above 2 (localTableAddFile p a) := by
  cases a <;> exact alone_above rfl rfl

theorem nonLockCloseFile_above (c : NonLockCloseFile) : Above 5 (nonLockCloseFile c) := by
  cases c with
  | closed d => exact fileDescDestroy_above d
  | _ => exact Block.nil

theorem localTableDestroy_above (p : ℕ) (slots : List FileDescDestroy) : Above 2 (localTableDestroy p slots) :=
  locked_above rfl rfl (Above.mono (Block.flatMap fileDescDestroy_above slots) (by decide))

theorem localTableDup2_above (p : ℕ) (o : LocalTableDup2) : Above 2 (localTableDup2 p o) := by
  cases o with
  | same => exact Block.nil
  | noOld => exact alone_above rfl rfl
  | closeFails c => exact locked_above rfl rfl (Above.mono (nonLockCloseFile_above c) (by decide))
  | done c =>
    refine locked_above rfl rfl ?_
    cases c with
    | none => exact Block.nil
    | some c => exact Above.mono (nonLockCloseFile_above c) (by decide)

theorem procCreate_above (q : ℕ) (c : ProcCreate) : Above 1 (procCreate q c) := by
  cases c with
  | noMutex slots => exact Above.mono (localTableDestroy_above q slots) (by decide)
  | noEntry slots => exact locked_above rfl rfl (localTableDestroy_above q slots)
  | created => exact alone_above rfl rfl
  | _ => exact Block.nil

theorem procDestroy_above (q : ℕ) (d : ProcDestroy) : Above 2 (procDestroy q d) :=
  (localTableDestroy_above q d.slots).append ((decref_innermost d.cwd).above 2)

/-- The lock of a descriptor and inside it that of its file. -/
theorem transfer_above (d f : ℕ) {ops : Ops} (h : Innermost ops) :
    Above 3 (.acquire (.desc d) :: (.acquire (.file f) :: ops ++ [.release (.file f)]) ++ [.release (.desc d)]) :=
  locked_above rfl rfl (locked_above rfl rfl (h.above 5))

theorem sysOpen_above (p : ℕ) (o : SysOpen) : Above 0 (sysOpen p o) := by
  have hg : ∀ g, Above 0 (globalTableOpenFile g) := fun g => Above.mono (globalTableOpenFile_above g) (by decide)
  have ha : ∀ a, Above 0 (localTableAddFile p a) := fun a => Above.mono (localTableAddFile_above p a) (by decide)
  cases o with
  | badPointer => exact Block.nil
  | badName => exact Block.nil
  | notOpened g => exact hg g
  | notAdded g a d => exact ((hg g).append (ha a)).append (Above.mono (fileDestroy_above d) (by decide))
  | opened g a => exact (hg g).append (ha a)

theorem sysClose_above (p : ℕ) (o : SysClose) : Above 0 (sysClose p o) := by
  cases o with
  | outOfRange => exact Block.nil
  | closed c =>
    have h : Above 2 (localTableCloseFile p c) :=
      locked_above rfl rfl (Above.mono (nonLockCloseFile_above c) (by decide))
    exact h.mono (by decide)

theorem console_above (d f : ℕ) (c : Console) : Above 0 (console d f c) := by
  have h : Above 3 [.acquire (.desc d), .acquire (.file f), .release (.file f), .release (.desc d)] :=
    transfer_above d f Block.nil
  cases c <;> exact h.mono (by decide)

theorem readFromDisk_above (d : ℕ) (o : Disk) : Above 0 (readFromDisk d o) := by
  have hv : ∀ v, Innermost (vopRead v) := fun v => by
    cases v with
    | directory => exact Block.nil
    | file => exact big_alone
  cases o with
  | wrongMode => exact Above.mono (alone_above (n := 3) rfl rfl) (by decide)
  | fails f v => exact Above.mono (transfer_above d f (hv v)) (by decide)
  | done f v => exact Above.mono (transfer_above d f (hv v)) (by decide)

theorem writeToDisk_above (d : ℕ) (o : Disk) : Above 0 (writeToDisk d o) := by
  have hv : ∀ v, Innermost (vopWrite v) := fun v => by
    cases v with
    | directory => exact Block.nil
    | file => exact big_alone
  cases o with
  | wrongMode => exact Above.mono (alone_above (n := 3) rfl rfl) (by decide)
  | fails f v => exact Above.mono (transfer_above d f (hv v)) (by decide)
  | done f v => exact Above.mono (transfer_above d f (hv v)) (by decide)

theorem sysRead_above (p : ℕ) (o : Transfer) : Above 0 (sysRead p o) := by
  have hg : ∀ g, Above 0 (localTableGet p g) := fun g => Above.mono (localTableGet_above p g) (by decide)
  cases o with
  | badPointer => exact Block.nil
  | noDesc g => exact hg g
  | console g d f c => exact (hg g).append (console_above d f c)
  | disk g d o => exact (hg g).append (readFromDisk_above d o)
  | wrongConsole g => exact hg g

theorem sysWrite_above (p : ℕ) (o : Transfer) : Above 0 (sysWrite p o) := by
  have hg : ∀ g, Above 0 (localTableGet p g) := fun g => Above.mono (localTableGet_above p g) (by decide)
  cases o with
  | badPointer => exact Block.nil
  | noDesc g => exact hg g
  | console g d f c => exact (hg g).append (console_above d f c)
  | disk g d o => exact (hg g).append (writeToDisk_above d o)
  | wrongConsole g => exact hg g

theorem sysLseek_above (p : ℕ) (o : SysLseek) : Above 0 (sysLseek p o) := by
  have hg : ∀ g, Above 0 (localTableGet p g) := fun g => Above.mono (localTableGet_above p g) (by decide)
  have ht : ∀ t, Innermost (sfsStat t) := fun t => by cases t <;> exact big_alone
  have hd : ∀ d, Above 0 [.acquire (.desc d), .release (.desc d)] :=
    fun d => Above.mono (alone_above (n := 3) rfl rfl) (by decide)
  have hs : ∀ d ops, Innermost ops → Above 0 (.acquire (.desc d) :: ops ++ [.release (.desc d)]) :=
    fun d ops h => Above.mono (locked_above (n := 3) rfl rfl (h.above 4)) (by decide)
  cases o with
  | noDesc g => exact hg g
  | console g => exact hg g
  | notSeekable g d => exact (hg g).append (hd d)
  | statFails g d t => exact (hg g).append (hs d _ (ht t))
  | badWhence g d => exact (hg g).append (hd d)
  | negative g d t => exact (hg g).append (hs d _ (elim_innermost ht t))
  | done g d t => exact (hg g).append (hs d _ (elim_innermost ht t))

theorem sysFork_above (p : ℕ) (o : SysFork) : Above 0 (sysFork p o) := by
  have hc : ∀ q c, Above 0 (procCreate q c) := fun q c => Above.mono (procCreate_above q c) (by decide)
  have hd : ∀ q d, Above 1 (procDestroy q d) := fun q d => Above.mono (procDestroy_above q d) (by decide)
  have hcopy : Above 1 (localTableCopy p) := Above.mono (alone_above (n := 2) rfl rfl) (by decide)
  cases o with
  | tooMany => exact Block.nil
  | tooManyChildren => exact Block.nil
  | notCreated q c => exact hc q c
  | noSpace q c d => exact (hc q c).append (locked_above rfl rfl (hd q d))
  | noFrame q c d => exact (hc q c).append (locked_above rfl rfl (hcopy.append (hd q d)))
  | noThread q c d => exact (hc q c).append (locked_above rfl rfl (hcopy.append (hd q d)))
  | forked q c => exact (hc q c).append (locked_above rfl rfl hcopy)

theorem sysWaitpid_above (o : SysWaitpid) : Above 0 (sysWaitpid o) := by
  have hg : Above 0 [.acquire .gptLock, .release .gptLock] := Above.mono (alone_above (n := 1) rfl rfl) (by decide)
  have hw : ∀ waited, Above 0 (awaitChild waited) := fun waited => by
    cases waited with
    | false => exact hg
    | true => exact (hg.append Block.pause).append hg
  cases o with
  | badOptions => exact Block.nil
  | badPid => exact Block.nil
  | noEntry => exact hg
  | notChild => exact hg
  | copyFails waited => exact hw waited
  | done waited => exact hw waited

theorem trace_above (c : Call) : Above 0 (trace c) := by
  cases c with
  | sysOpen p o => exact sysOpen_above p o
  | sysClose p o => exact sysClose_above p o
  | sysRead p o => exact sysRead_above p o
  | sysWrite p o => exact sysWrite_above p o
  | sysLseek p o => exact sysLseek_above p o
  | sysDup2 p o =>
    cases o with
    | outOfRange => exact Block.nil
    | dup o => exact Above.mono (localTableDup2_above p o) (by decide)
  | sysFork p o => exact sysFork_above p o
  | sysExit p o =>
    exact Block.append (Above.mono (alone_above (n := 1) rfl rfl) (by decide))
      (Above.mono (procDestroy_above p o) (by decide))
  | sysWaitpid o => exact sysWaitpid_above o

variable {T : Type} [DecidableEq T]

/-- For any threads making these calls, with any outcomes and in any
interleaving: no circle of threads waiting for each other's locks, no lock left
to a thread whose call has returned, and no assertion of the locks failed. -/
theorem run_ordered (as : List (Action T Call)) (s : State T Lock)
    (hr : Runs.run (step trace) as idle = .ok s) :
    Chains.Acyclic (waitsFor s) ∧ (∀ t, s.todo t = [] → ∀ k, s.holder k ≠ some t) ∧
      ∀ t e, next t s = .error e → e = .blocked := by
  have h := run_sound (fun c => (trace_above c).safe) hr
  exact ⟨h.acyclic, fun _ ht k => h.returned ht k, fun _ _ he => next_stops h he⟩

/-- Thread 1 is in the file system; thread 0 duplicates a descriptor onto one
whose file is closed by this, and waits. -/
def crossing : List (Action (Fin 2) Call) :=
  .call 1 (.sysRead 1 (.disk .got 5 (.done 4 .file))) :: List.replicate 5 (.next 1) ++
    .call 0 (.sysDup2 0 (.dup (.done (some (.closed (.file (.last (some .busy)))))))) ::
      List.replicate 2 (.next 0)

theorem crossing_ordered :
    ∃ s, Runs.run (step trace) crossing idle = .ok s ∧ waitsFor s 0 = some 1 ∧
      s.holder .globalTable = some 0 ∧ Chains.Acyclic (waitsFor s) := by
  obtain ⟨s, hr, hw, hg⟩ : ∃ s, Runs.run (step trace) crossing idle = .ok s ∧ waitsFor s 0 = some 1 ∧
      s.holder .globalTable = some 0 := by decide +kernel
  exact ⟨s, hr, hw, hg, (run_ordered crossing s hr).1⟩

end OS161.LockCalls
