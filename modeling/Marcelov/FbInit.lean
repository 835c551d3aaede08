import Marcelov.FwCfg
import Marcelov.Lib.Loop

/-!
# Setting up the framebuffer

`fb_init` of `fb.c`: read the directory of fw_cfg files, look for the entry `etc/ramfb`, write the
configuration to its selector. `fb_selector` is assigned only where the entry is found, so the
model has the value that it holds before that as a parameter.

`fbInit_contract_iff` says for which devices the value returned, the variable `fb` and the writes
are as they should be: those whose directory can be read and has the entry.
-/

namespace Marcelov

open Lib

structure FbConfig where
  canvas : BitVec 64
  width : BitVec 32
  height : BitVec 32
  deriving DecidableEq

/-- What the stack frame of `fb_init` has before it runs: where its variables are, and what is in
`fb_selector`. -/
structure FbInitFrame where
  accessAddr : BitVec 64
  countAddr : BitVec 64
  fileAddr : BitVec 64
  configAddr : BitVec 64
  fbSelector : BitVec 16

structure FbInitResult where
  ret : Bool
  fb : FbConfig
  log : List DmaRequest

/-- `"etc/ramfb"` -/
def ramfbName : List (BitVec 8) := [0x65, 0x74, 0x63, 0x2f, 0x72, 0x61, 0x6d, 0x66, 0x62]

def fbPixfmtXrgb8888 : BitVec 32 := 0x34325258

/-- The packed structure that `fb_init` writes. -/
def fbConfigBytes (address : BitVec 64) (width height : BitVec 32) : List (BitVec 8) :=
  bytesOf 8 (bswap8 address) ++ bytesOf 4 (bswap4 fbPixfmtXrgb8888) ++ bytesOf 4 (bswap4 0) ++
    bytesOf 4 (bswap4 width) ++ bytesOf 4 (bswap4 height) ++ bytesOf 4 (bswap4 (width * 4))

/-- `file.name`, eight bytes into the entry -/
def fileName (data : ℕ → BitVec 8) : ℕ → BitVec 8 := fun j => data (8 + j)

/-- `file.select`, four bytes into the entry -/
def fileSelect (data : ℕ → BitVec 8) : BitVec 16 := loadHalf data 4

/-- The loop over the directory, with `n` iterations left: `fb_selector` after it. `i < count`
compares unsigned, so there are `count` of them. -/
def findRamfb (dev : FwCfgDevice) (frame : FbInitFrame) :
    ℕ → List DmaRequest → BitVec 16 × List DmaRequest
  | 0, log => (frame.fbSelector, log)
  | n + 1, log =>
    let (file, log) := fwCfgDmaRead dev frame.accessAddr log frame.fileAddr 64
    if file.failed then findRamfb dev frame n log
    else if strEq ramfbName (fileName file.data) then (bswap2 (fileSelect file.data), log)
    else findRamfb dev frame n log

def fbInit (dev : FwCfgDevice) (frame : FbInitFrame) (address : BitVec 64)
    (width height : BitVec 32) (fb : FbConfig) : FbInitResult :=
  let (dir, log) := fwCfgDmaReadFrom dev frame.accessAddr [] fwCfgFileDir frame.countAddr 4
  if dir.failed then ⟨false, fb, log⟩
  else
    let count := bswap4 (loadWord dir.data 0)
    let (fbSelector, log) := findRamfb dev frame count.toNat log
    let (write, log) := fwCfgDmaWriteTo dev frame.accessAddr log fbSelector frame.configAddr 28
      (fbConfigBytes address width height)
    if write.failed then ⟨true, fb, log⟩ else ⟨false, ⟨address, width, height⟩, log⟩

/-! ## What the device has -/

section

variable (dev : FwCfgDevice) (frame : FbInitFrame)

def dirRequest : DmaRequest :=
  dmaRequest frame.accessAddr fwCfgFileDir (fwCfgDmaSelect ||| fwCfgDmaReadBit) 4 frame.countAddr []

def entryRequest : DmaRequest :=
  dmaRequest frame.accessAddr 0 fwCfgDmaReadBit 64 frame.fileAddr []

def configRequest (selector : BitVec 16) (config : List (BitVec 8)) : DmaRequest :=
  dmaRequest frame.accessAddr selector (fwCfgDmaSelect ||| fwCfgDmaWriteBit) 28 frame.configAddr
    config

/-- The answer to the read of the directory's size. -/
def dirReply : DmaReply := dev [dirRequest frame]

/-- The requests up to the read of entry `n`. -/
def entryLog (n : ℕ) : List DmaRequest :=
  dirRequest frame :: List.replicate (n + 1) (entryRequest frame)

/-- The answer to the read of entry `n`. -/
def entryReply (n : ℕ) : DmaReply := dev (entryLog frame n)

def configReply (n : ℕ) (config : List (BitVec 8)) : DmaReply :=
  dev (entryLog frame n ++ [configRequest frame (bswap2 (fileSelect (entryReply dev frame n).data))
    config])

/-- The number of entries that the directory says it has. -/
def dirCount : ℕ := (bswap4 (loadWord (dirReply dev frame).data 0)).toNat

/-- The entry was read, and its name is `etc/ramfb`. -/
def DmaReply.Named (r : DmaReply) : Prop :=
  r.failed = false ∧ ∀ j ≤ ramfbName.length, fileName r.data j = ramfbName.getD j 0

/-- Entry `n` is the first that was read with the name `etc/ramfb`. -/
def FirstNamed (n : ℕ) : Prop :=
  n < dirCount dev frame ∧ (entryReply dev frame n).Named ∧
    ∀ m < n, ¬ (entryReply dev frame m).Named

/-- `fb_init` reports success exactly when it has succeeded, changes `fb` exactly then, and writes
to no selector but that of an entry `etc/ramfb`. -/
structure FbInitContract (address : BitVec 64) (width height : BitVec 32) (fb : FbConfig) :
    Prop where
  success_iff : (fbInit dev frame address width height fb).ret = false ↔
    (dirReply dev frame).failed = false ∧ ∃ n, FirstNamed dev frame n ∧
      (configReply dev frame n (fbConfigBytes address width height)).failed = false
  fb_set : (fbInit dev frame address width height fb).ret = false →
    (fbInit dev frame address width height fb).fb = ⟨address, width, height⟩
  fb_kept : (fbInit dev frame address width height fb).ret = true →
    (fbInit dev frame address width height fb).fb = fb
  writes : ∀ q ∈ (fbInit dev frame address width height fb).log, q.IsWrite →
    ∃ n, FirstNamed dev frame n ∧
      q.selector = bswap2 (fileSelect (entryReply dev frame n).data)

end

/-! ## The requests of a run -/

section

variable {dev : FwCfgDevice} {frame : FbInitFrame} {address : BitVec 64} {width height : BitVec 32}
  {fb : FbConfig} {n : ℕ}

theorem not_isWrite_dirRequest : ¬ (dirRequest frame).IsWrite := by
  show ¬ bswap2 (bswap2 _) &&& _ ≠ 0
  decide

theorem not_isWrite_entryRequest : ¬ (entryRequest frame).IsWrite := by
  show ¬ bswap2 (bswap2 _) &&& _ ≠ 0
  decide

theorem isWrite_configRequest (selector : BitVec 16) (config : List (BitVec 8)) :
    (configRequest frame selector config).IsWrite := by
  show bswap2 (bswap2 _) &&& _ ≠ 0
  decide

theorem selector_configRequest (selector : BitVec 16) (config : List (BitVec 8)) :
    (configRequest frame selector config).selector = selector := bswap2_bswap2 selector

theorem not_isWrite_search {k : ℕ} {q : DmaRequest}
    (hq : q ∈ dirRequest frame :: List.replicate k (entryRequest frame)) : ¬ q.IsWrite := by
  rcases List.mem_cons.1 hq with rfl | hq
  · exact not_isWrite_dirRequest
  · obtain rfl := List.eq_of_mem_replicate hq
    exact not_isWrite_entryRequest

theorem entryLog_eq (frame : FbInitFrame) (n : ℕ) :
    entryLog frame n =
      dirRequest frame :: List.replicate n (entryRequest frame) ++ [entryRequest frame] := by
  rw [entryLog, List.replicate_succ', List.cons_append]

/-! ## The search -/

theorem named_iff {r : DmaReply} :
    r.Named ↔ r.failed = false ∧ strEq ramfbName (fileName r.data) = true := by
  rw [DmaReply.Named, strEq_iff (by decide)]

theorem fwCfgDmaRead_entry (dev : FwCfgDevice) (frame : FbInitFrame) (k : ℕ) :
    fwCfgDmaRead dev frame.accessAddr
        (dirRequest frame :: List.replicate k (entryRequest frame)) frame.fileAddr 64 =
      (entryReply dev frame k, entryLog frame k) := by
  rw [entryReply, entryLog_eq]
  rfl

theorem findRamfb_of_named {k : ℕ} (h : (entryReply dev frame k).Named) :
    findRamfb dev frame (n + 1) (dirRequest frame :: List.replicate k (entryRequest frame)) =
      (bswap2 (fileSelect (entryReply dev frame k).data), entryLog frame k) := by
  obtain ⟨hread, hname⟩ := named_iff.1 h
  rw [findRamfb, fwCfgDmaRead_entry]
  dsimp only
  rw [if_neg (by simp [hread]), if_pos hname]

theorem findRamfb_of_not_named {k : ℕ} (h : ¬ (entryReply dev frame k).Named) :
    findRamfb dev frame (n + 1) (dirRequest frame :: List.replicate k (entryRequest frame)) =
      findRamfb dev frame n (entryLog frame k) := by
  rw [findRamfb, fwCfgDmaRead_entry]
  dsimp only
  split_ifs with hfailed hname
  · rfl
  · exact absurd (named_iff.2 ⟨Bool.eq_false_iff.2 hfailed, hname⟩) h
  · rfl

theorem findRamfb_found {k j : ℕ} (hj : j < n) (h : (entryReply dev frame (k + j)).Named)
    (hfirst : ∀ m < j, ¬ (entryReply dev frame (k + m)).Named) :
    findRamfb dev frame n (dirRequest frame :: List.replicate k (entryRequest frame)) =
      (bswap2 (fileSelect (entryReply dev frame (k + j)).data), entryLog frame (k + j)) := by
  induction n generalizing k j with
  | zero => exact absurd hj (Nat.not_lt_zero j)
  | succ n ih =>
    cases j with
    | zero =>
      simp only [Nat.add_zero] at h ⊢
      exact findRamfb_of_named h
    | succ j =>
      have hnot : ¬ (entryReply dev frame k).Named := hfirst 0 j.succ_pos
      have hshift (m : ℕ) : k + (m + 1) = k + 1 + m := by omega
      rw [hshift j] at h ⊢
      have hrest : ∀ m < j, ¬ (entryReply dev frame (k + 1 + m)).Named := fun m hm =>
        hshift m ▸ hfirst (m + 1) (Nat.succ_lt_succ hm)
      rw [findRamfb_of_not_named hnot]
      exact ih (Nat.lt_of_succ_lt_succ hj) h hrest

/-- Without such an entry it goes through the directory, and `fb_selector` stays as it was. -/
theorem findRamfb_not_found {k : ℕ} (h : ∀ m < n, ¬ (entryReply dev frame (k + m)).Named) :
    findRamfb dev frame n (dirRequest frame :: List.replicate k (entryRequest frame)) =
      (frame.fbSelector, dirRequest frame :: List.replicate (k + n) (entryRequest frame)) := by
  induction n generalizing k with
  | zero => rfl
  | succ n ih =>
    have hnot : ¬ (entryReply dev frame k).Named := h 0 n.succ_pos
    have hrest (m : ℕ) (hm : m < n) : ¬ (entryReply dev frame (k + 1 + m)).Named := by
      rw [Nat.add_assoc, Nat.add_comm 1]
      exact h (m + 1) (Nat.succ_lt_succ hm)
    rw [findRamfb_of_not_named hnot, entryLog, ih hrest, Nat.add_assoc, Nat.add_comm 1]

/-! ## The ways through `fb_init` -/

theorem fwCfgDmaReadFrom_dir (dev : FwCfgDevice) (frame : FbInitFrame) :
    fwCfgDmaReadFrom dev frame.accessAddr [] fwCfgFileDir frame.countAddr 4 =
      (dirReply dev frame, [dirRequest frame]) := by
  rw [dirReply, dirRequest]
  rfl

theorem fbInit_of_dir_failed (h : (dirReply dev frame).failed = true) :
    (fbInit dev frame address width height fb).ret = false := by
  rw [fbInit, fwCfgDmaReadFrom_dir]
  dsimp only
  rw [if_pos h]

theorem fbInit_of_dir_read (h : (dirReply dev frame).failed = false) {selector : BitVec 16}
    {log : List DmaRequest}
    (hfind : findRamfb dev frame (dirCount dev frame) [dirRequest frame] = (selector, log)) :
    let log' := log ++ [configRequest frame selector (fbConfigBytes address width height)]
    fbInit dev frame address width height fb =
      ⟨(dev log').failed, if (dev log').failed then fb else ⟨address, width, height⟩, log'⟩ := by
  intro log'
  rw [fbInit, fwCfgDmaReadFrom_dir]
  dsimp only
  rw [if_neg (by simp [h]), ← dirCount, hfind]
  show (if (dev log').failed then _ else _) = _
  by_cases hwrite : (dev log').failed = true
  · rw [if_pos hwrite, if_pos hwrite, hwrite]
    rfl
  · rw [if_neg hwrite, if_neg hwrite, Bool.eq_false_iff.2 hwrite]
    rfl

theorem FirstNamed.unique {m : ℕ} (hm : FirstNamed dev frame m) (hn : FirstNamed dev frame n) :
    m = n :=
  first_unique hm.2.2 (not_not_intro hm.2.1) hn.2.2 (not_not_intro hn.2.1)

theorem exists_firstNamed (h : ∃ n < dirCount dev frame, (entryReply dev frame n).Named) :
    ∃ n, FirstNamed dev frame n := by
  rcases forall_or_exists_first (fun m => ¬ (entryReply dev frame m).Named) (dirCount dev frame)
    with hnone | ⟨n, hlt, hbefore, hnamed⟩
  · obtain ⟨n, hlt, hnamed⟩ := h
    exact absurd hnamed (hnone n hlt)
  · exact ⟨n, hlt, not_not.1 hnamed, hbefore⟩

end

/-! ## The result -/

section

variable {dev : FwCfgDevice} {frame : FbInitFrame} {address : BitVec 64} {width height : BitVec 32}
  {fb : FbConfig} {n : ℕ}

/-- Where there is no entry, the configuration goes to whatever `fb_selector` holds. -/
theorem FbInitContract.exists_named (h : FbInitContract dev frame address width height fb)
    (hdir : (dirReply dev frame).failed = false) :
    ∃ n < dirCount dev frame, (entryReply dev frame n).Named := by
  by_contra hnone
  push Not at hnone
  have hfind := findRamfb_not_found (k := 0) fun m hm => by
    rw [Nat.zero_add]
    exact hnone m hm
  have hwrite := h.writes
  rw [fbInit_of_dir_read hdir hfind] at hwrite
  obtain ⟨n, hfirst, -⟩ := hwrite _ (List.mem_append_right _ (List.mem_singleton_self _))
    (isWrite_configRequest _ _)
  exact hnone n hfirst.1 hfirst.2.1

theorem FirstNamed.contract (hn : FirstNamed dev frame n)
    (hdir : (dirReply dev frame).failed = false) :
    FbInitContract dev frame address width height fb := by
  have hfind : findRamfb dev frame (dirCount dev frame) [dirRequest frame] =
      (bswap2 (fileSelect (entryReply dev frame n).data), entryLog frame n) := by
    have hentry (m : ℕ) : entryReply dev frame (0 + m) = entryReply dev frame m := by
      rw [Nat.zero_add]
    have hfound := findRamfb_found (k := 0) hn.1 (hentry n ▸ hn.2.1)
      fun m hm => hentry m ▸ hn.2.2 m hm
    rwa [Nat.zero_add] at hfound
  have hinit : fbInit dev frame address width height fb = _ := fbInit_of_dir_read hdir hfind
  have hret : (fbInit dev frame address width height fb).ret =
      (configReply dev frame n (fbConfigBytes address width height)).failed := by
    rw [hinit]
    rfl
  constructor
  · rw [hret]
    constructor
    · intro hwrite
      exact ⟨hdir, n, hn, hwrite⟩
    · rintro ⟨-, m, hm, hwrite⟩
      rwa [← hm.unique hn]
  · intro hsuccess
    rw [hinit] at hsuccess ⊢
    exact if_neg (Bool.eq_false_iff.1 hsuccess)
  · intro hfailure
    rw [hinit] at hfailure ⊢
    exact if_pos hfailure
  · intro q hq hwrite
    rw [hinit] at hq
    rcases List.mem_append.1 hq with hq | hq
    · exact absurd hwrite (not_isWrite_search hq)
    · obtain rfl := List.mem_singleton.1 hq
      exact ⟨n, hn, selector_configRequest _ _⟩

end

/-- **The contract of `fb_init`** is kept, for any device, exactly when the directory can be read
and one of its entries is read with the name `etc/ramfb`. -/
theorem fbInit_contract_iff (dev : FwCfgDevice) (frame : FbInitFrame) (address : BitVec 64)
    (width height : BitVec 32) (fb : FbConfig) :
    FbInitContract dev frame address width height fb ↔
      (dirReply dev frame).failed = false ∧
        ∃ n < dirCount dev frame, (entryReply dev frame n).Named := by
  constructor
  · intro h
    by_cases hdir : (dirReply dev frame).failed = true
    · exact absurd (h.success_iff.1 (fbInit_of_dir_failed hdir)).1 (by simp [hdir])
    · rw [Bool.not_eq_true] at hdir
      exact ⟨hdir, h.exists_named hdir⟩
  · rintro ⟨hdir, hnamed⟩
    obtain ⟨n, hn⟩ := exists_firstNamed hnamed
    exact hn.contract hdir

def brokenDevice : FwCfgDevice := fun _ =>
  { status := [bswap2 fwCfgDmaError]
    data := fun _ => 0
    ends := by decide }

/-- With it, `fb_init` returns its value for success. -/
theorem not_fbInit_contract_broken :
    ¬ FbInitContract brokenDevice ⟨0x80210000, 0x80210010, 0x80210020, 0x80210060, 0⟩ 0x80200000
      640 480 ⟨0, 0, 0⟩ := by
  intro h
  exact absurd (h.success_iff.1 (by decide)).1 (by decide)

end Marcelov
