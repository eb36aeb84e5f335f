import Klog.Format.Render
import Klog.History

/-!
# The lines the kernel logs

Besides `klog_init`, the kernel logs at five places that pass only numbers or a process name:
`fork` and `exit` (`proc.c`) through `klog_printf`, `sys_read` and `sys_write` (`sysfile.c`)
through `klog_debug` once they moved at least 64 bytes, and a successful `exec` (`exec.c`)
through `klog_info` with `curproc->name`. `klog_printf` finds its arguments as the words after
the format on the stack (`pushArgs`).

## Whole lines

`klog_printf_internal` keeps the first 63 characters of a line (`cstr_msg_eq_renderCode`). The
five lines have at most 47: two `int`s of at most 11 characters each and a name of at most 15
(`proc.name[16]`, terminated by `safestrcpy`). So each is logged whole, exactly as its format
reads with its arguments printed in decimal (`kernel_lines_logged_whole`).
-/

namespace Klog

/-- `KLOG_DEBUG` (`klog.h`). -/
def klogDebug : ℤ := 0

/-- The words at `ap` for a call with the arguments `ws`: the arguments, then whatever follows
them on the stack. -/
def pushArgs (ws : List UInt32) (rest : ℕ → UInt32) : ℕ → UInt32 :=
  fun i ↦ ws.getD i (rest i)

@[simp] theorem pushArgs_cons_zero (w : UInt32) (ws : List UInt32) (rest : ℕ → UInt32) :
    pushArgs (w :: ws) rest 0 = w := rfl

@[simp] theorem pushArgs_cons_succ (w : UInt32) (ws : List UInt32) (rest : ℕ → UInt32) (i : ℕ) :
    pushArgs (w :: ws) rest (i + 1) = pushArgs ws (fun j ↦ rest (j + 1)) i := rfl

/-- The call a site makes with the format `fmt` and the argument words `ws`, on the CPU, process
and stack of `ctx`. -/
abbrev LogCall.at (ctx : LogCall) (fmt : List Char) (ws : List UInt32) : LogCall :=
  { ctx with fmt := fmt, args := pushArgs ws ctx.args }

/-- `klog_printf("fork: pid %d created child %d", curproc->pid, pid)`, at the end of `fork`. -/
def forkLog (s : KlogState) (ctx : LogCall) (parent child : ℤ) : KlogState :=
  klogPrintf s (ctx.at "fork: pid %d created child %d".toList [UInt32.ofInt parent, UInt32.ofInt child])

/-- `klog_printf("exit: pid %d exiting", curproc->pid)`, at the start of `exit`. -/
def exitLog (s : KlogState) (ctx : LogCall) (pid : ℤ) : KlogState :=
  klogPrintf s (ctx.at "exit: pid %d exiting".toList [UInt32.ofInt pid])

/-- `if(result >= 64) klog_debug(fmt, result);`, the byte count that `sys_read` and `sys_write`
log. -/
def bytesLog (fmt : List Char) (s : KlogState) (ctx : LogCall) (result : ℤ) : KlogState :=
  if result ≥ 64 then klogPrintfLevel s klogDebug (ctx.at fmt [UInt32.ofInt result]) else s

/-- The log line of `sys_read`. -/
def sysReadLog : KlogState → LogCall → ℤ → KlogState := bytesLog "read: %d bytes".toList

/-- The log line of `sys_write`. -/
def sysWriteLog : KlogState → LogCall → ℤ → KlogState := bytesLog "write: %d bytes".toList

/-- `klog_info("exec: %s", curproc->name)`, at the end of a successful `exec`; `name` is the
address of `curproc->name`. -/
def execLog (s : KlogState) (ctx : LogCall) (name : UInt32) : KlogState :=
  klogPrintfLevel s klogInfo (ctx.at "exec: %s".toList [name])

/-- The entry in the slot that `head` of ring `c` pointed at in `s`, as `s'` holds it: the entry
a logging call from `s` to `s'` appended. -/
def appended (s s' : KlogState) (c : Fin ncpu) : KlogEntry :=
  (s'.cpuLogs c).slot (s.cpuLogs c).head.toNat

/-! ## The entry a call appends -/

/-- A call on CPU `c < NCPU` writes its entry into the slot `head` pointed at. -/
theorem appended_klogPrintfInternal (s : KlogState) (call : LogCall) (hc : call.cpu < ncpu) :
    appended s (klogPrintfInternal s call) ⟨call.cpu, hc⟩ =
      call.toEntry s.globalSeq (appended s s ⟨call.cpu, hc⟩).msg := by
  rw [appended, klogPrintfInternal_cpuLogs_self s call hc, KlogCpuBuf.slot, KlogCpuBuf.write]
  exact Function.update_self _ _ _

/-- The message of the appended entry is its call's line, cut at 63 characters. -/
theorem cstr_appended_msg (s : KlogState) (call : LogCall) (hc : call.cpu < ncpu) :
    cstr (appended s (klogPrintfInternal s call) ⟨call.cpu, hc⟩).msg =
      (renderCode call.args call.strAt call.fmt).take 63 := by
  rw [appended_klogPrintfInternal s call hc, cstr_msg_eq_renderCode]

/-! ## Rendering a fixed format -/

section Literals

variable (dec : ℤ → List Char) (hex : ℕ → UInt32 → List Char) (args : ℕ → UInt32)
  (strAt : UInt32 → List Char) (fmt : List Char) (ap : ℕ)

/-- Characters other than NUL and `%` render as themselves. -/
theorem renderWith_literals {lits : List Char} (hnul : '\x00' ∉ lits) (hpct : '%' ∉ lits) :
    ∀ pos, renderWith dec hex args strAt (lits ++ fmt) ap pos =
      lits ++ renderWith dec hex args strAt fmt ap (pos + lits.length) := by
  induction lits with
  | nil => intro pos; rfl
  | cons c lits ih =>
    intro pos
    obtain ⟨hc, hnul'⟩ := not_or.mp (mt List.mem_cons.mpr hnul)
    obtain ⟨hc', hpct'⟩ := not_or.mp (mt List.mem_cons.mpr hpct)
    rw [List.cons_append, renderWith_literal _ _ _ _ _ _ _ (Ne.symm hc) (Ne.symm hc'),
      ih hnul' hpct', List.length_cons, Nat.add_assoc, Nat.add_comm 1]
    rfl

@[simp] theorem renderWith_nil (pos : ℕ) : renderWith dec hex args strAt [] ap pos = [] := rfl

/-- A format of literal characters only renders as itself. -/
theorem renderWith_of_literals {lits : List Char} (hnul : '\x00' ∉ lits) (hpct : '%' ∉ lits)
    (pos : ℕ) : renderWith dec hex args strAt lits ap pos = lits := by
  have h := renderWith_literals dec hex args strAt [] ap hnul hpct pos
  rwa [List.append_nil, renderWith_nil, List.append_nil] at h

/-- Literal characters and a `%d`: the literals, then the decimal of the next argument. -/
theorem renderWith_literals_int {lits : List Char} (hnul : '\x00' ∉ lits) (hpct : '%' ∉ lits)
    (pos : ℕ) :
    renderWith dec hex args strAt (lits ++ '%' :: 'd' :: fmt) ap pos =
      lits ++ dec (asInt (args ap)) ++ renderWith dec hex args strAt fmt (ap + 1)
        (pos + lits.length + (dec (asInt (args ap))).length) := by
  rw [renderWith_literals _ _ _ _ _ _ hnul hpct, renderWith_int, List.append_assoc]

end Literals

/-- An `int` passed as a word reads back as itself. -/
theorem asInt_ofInt {v : ℤ} (hlo : -2 ^ 31 ≤ v) (hhi : v < 2 ^ 31) : asInt (UInt32.ofInt v) = v := by
  have hmod : ((UInt32.ofInt v).toNat : ℤ) = v % 2 ^ 32 := by
    rw [UInt32.ofInt, UInt32.toNat_ofNat']
    omega
  unfold asInt
  rw [hmod, show (2 : ℤ) ^ 32 = ((2 ^ 32 : ℕ) : ℤ) by norm_num, Int.emod_bmod]
  exact Int.bmod_eq_of_le hlo hhi

/-- `%d` of an `int` other than `INT_MIN` passed as a word prints its decimal. -/
theorem decimalCode_asInt_ofInt {v : ℤ} (hlo : -2 ^ 31 < v) (hhi : v < 2 ^ 31) :
    decimalCode (asInt (UInt32.ofInt v)) = decimalText v := by
  rw [asInt_ofInt hlo.le hhi, decimalCode_of_ne hlo.ne']

/-- The decimal of an `int` has at most eleven characters: a sign and ten digits. -/
theorem length_decimalText_le {v : ℤ} (hlo : -2 ^ 31 < v) (hhi : v < 2 ^ 31) :
    (decimalText v).length ≤ 11 := by
  have hdigits : (Nat.toDigits 10 v.natAbs).length ≤ 10 :=
    DigitLoop.length_toDigits_le (by norm_num) (by norm_num) (by omega)
  unfold decimalText
  split_ifs <;> simp only [List.length_append, List.length_cons, List.length_nil] <;> omega

/-! ## The five lines -/

section Lines

variable (args : ℕ → UInt32) (strAt : UInt32 → List Char)

theorem renderCode_fork {parent child : ℤ} (hp : -2 ^ 31 < parent ∧ parent < 2 ^ 31)
    (hc : -2 ^ 31 < child ∧ child < 2 ^ 31) :
    renderCode (pushArgs [UInt32.ofInt parent, UInt32.ofInt child] args) strAt
        "fork: pid %d created child %d".toList =
      "fork: pid ".toList ++ decimalText parent ++ " created child ".toList ++ decimalText child := by
  have hfmt : "fork: pid %d created child %d".toList =
      "fork: pid ".toList ++ '%' :: 'd' :: (" created child ".toList ++ ['%', 'd']) := rfl
  rw [renderCode, hfmt, renderWith_literals_int _ _ _ _ _ _ (by decide) (by decide),
    renderWith_literals_int _ _ _ _ _ _ (by decide) (by decide)]
  simp only [pushArgs_cons_zero, pushArgs_cons_succ, renderWith_nil, List.append_nil,
    decimalCode_asInt_ofInt hp.1 hp.2, decimalCode_asInt_ofInt hc.1 hc.2, List.append_assoc]

theorem renderCode_exit {pid : ℤ} (hp : -2 ^ 31 < pid ∧ pid < 2 ^ 31) :
    renderCode (pushArgs [UInt32.ofInt pid] args) strAt "exit: pid %d exiting".toList =
      "exit: pid ".toList ++ decimalText pid ++ " exiting".toList := by
  have hfmt : "exit: pid %d exiting".toList = "exit: pid ".toList ++ '%' :: 'd' :: " exiting".toList :=
    rfl
  rw [renderCode, hfmt, renderWith_literals_int _ _ _ _ _ _ (by decide) (by decide),
    renderWith_of_literals _ _ _ _ _ (by decide) (by decide)]
  simp only [pushArgs_cons_zero, decimalCode_asInt_ofInt hp.1 hp.2]

/-- The line of `sys_read` and `sys_write`: a literal, the count, and ` bytes`. -/
theorem renderCode_bytes {pre : List Char} (hnul : '\x00' ∉ pre) (hpct : '%' ∉ pre) {result : ℤ}
    (hr : -2 ^ 31 < result ∧ result < 2 ^ 31) :
    renderCode (pushArgs [UInt32.ofInt result] args) strAt (pre ++ '%' :: 'd' :: " bytes".toList) =
      pre ++ decimalText result ++ " bytes".toList := by
  rw [renderCode, renderWith_literals_int _ _ _ _ _ _ hnul hpct,
    renderWith_of_literals _ _ _ _ _ (by decide) (by decide)]
  simp only [pushArgs_cons_zero, decimalCode_asInt_ofInt hr.1 hr.2]

theorem renderCode_exec (name : UInt32) :
    renderCode (pushArgs [name] args) strAt "exec: %s".toList = "exec: ".toList ++ strText strAt name := by
  have hfmt : "exec: %s".toList = "exec: ".toList ++ ['%', 's'] := rfl
  rw [renderCode, hfmt, renderWith_literals _ _ _ _ _ _ (by decide) (by decide), renderWith_str]
  simp only [pushArgs_cons_zero, renderWith_nil, List.append_nil]

end Lines

/-- **The byte count line.** `sys_read` and `sys_write` log a count of at least 64 in full, after
a prefix of at most 46 characters. -/
theorem cstr_appended_bytesLog {pre : List Char} (hnul : '\x00' ∉ pre) (hpct : '%' ∉ pre)
    (hpre : pre.length ≤ 46) (s : KlogState) (ctx : LogCall) (hc : ctx.cpu < ncpu) {result : ℤ}
    (h64 : 64 ≤ result) (hr : result < 2 ^ 31) :
    cstr (appended s (bytesLog (pre ++ '%' :: 'd' :: " bytes".toList) s ctx result)
        ⟨ctx.cpu, hc⟩).msg = pre ++ decimalText result ++ " bytes".toList := by
  have hdec := length_decimalText_le (by omega : -2 ^ 31 < result) hr
  rw [bytesLog, if_pos h64, klogPrintfLevel, cstr_appended_msg]
  dsimp only [LogCall.at]
  rw [renderCode_bytes _ _ hnul hpct ⟨by omega, hr⟩, List.take_of_length_le]
  simp only [List.length_append, show " bytes".toList.length = 6 from rfl]
  omega

/-- **The kernel's own lines are logged whole.** On every CPU below `NCPU` and from every store
state, the entry that each of the five fixed log lines appends reads exactly as its format with
its arguments filled in: the `int`s of `fork`, `exit`, `sys_read` and `sys_write` in decimal,
whatever `int` they are but `INT_MIN`, and the name `exec` logs, as long as it has at most 15
characters, as `proc.name[16]` guarantees. None of them is cut at 63 characters. -/
theorem kernel_lines_logged_whole (s : KlogState) (ctx : LogCall) (hc : ctx.cpu < ncpu) :
    (∀ parent child : ℤ, -2 ^ 31 < parent → parent < 2 ^ 31 → -2 ^ 31 < child → child < 2 ^ 31 →
      cstr (appended s (forkLog s ctx parent child) ⟨ctx.cpu, hc⟩).msg =
        "fork: pid ".toList ++ decimalText parent ++ " created child ".toList ++
          decimalText child) ∧
    (∀ pid : ℤ, -2 ^ 31 < pid → pid < 2 ^ 31 →
      cstr (appended s (exitLog s ctx pid) ⟨ctx.cpu, hc⟩).msg =
        "exit: pid ".toList ++ decimalText pid ++ " exiting".toList) ∧
    (∀ result : ℤ, 64 ≤ result → result < 2 ^ 31 →
      cstr (appended s (sysReadLog s ctx result) ⟨ctx.cpu, hc⟩).msg =
        "read: ".toList ++ decimalText result ++ " bytes".toList) ∧
    (∀ result : ℤ, 64 ≤ result → result < 2 ^ 31 →
      cstr (appended s (sysWriteLog s ctx result) ⟨ctx.cpu, hc⟩).msg =
        "write: ".toList ++ decimalText result ++ " bytes".toList) ∧
    (∀ name : UInt32, (strText ctx.strAt name).length ≤ 15 →
      cstr (appended s (execLog s ctx name) ⟨ctx.cpu, hc⟩).msg =
        "exec: ".toList ++ strText ctx.strAt name) := by
  refine ⟨fun parent child hp hp' hch hch' ↦ ?_, fun pid hp hp' ↦ ?_, fun result hr hr' ↦ ?_,
    fun result hr hr' ↦ ?_, fun name hname ↦ ?_⟩
  · -- two `int`s of at most 11 characters and 25 literal ones
    have h1 := length_decimalText_le hp hp'
    have h2 := length_decimalText_le hch hch'
    rw [forkLog, klogPrintf, cstr_appended_msg]
    dsimp only [LogCall.at]
    rw [renderCode_fork _ _ ⟨hp, hp'⟩ ⟨hch, hch'⟩, List.take_of_length_le]
    simp only [List.length_append, show "fork: pid ".toList.length = 10 from rfl,
      show " created child ".toList.length = 15 from rfl]
    omega
  · have h1 := length_decimalText_le hp hp'
    rw [exitLog, klogPrintf, cstr_appended_msg]
    dsimp only [LogCall.at]
    rw [renderCode_exit _ _ ⟨hp, hp'⟩, List.take_of_length_le]
    simp only [List.length_append, show "exit: pid ".toList.length = 10 from rfl,
      show " exiting".toList.length = 8 from rfl]
    omega
  · rw [sysReadLog,
      show "read: %d bytes".toList = "read: ".toList ++ '%' :: 'd' :: " bytes".toList from rfl]
    exact cstr_appended_bytesLog (by decide) (by decide) (by decide) s ctx hc hr hr'
  · rw [sysWriteLog,
      show "write: %d bytes".toList = "write: ".toList ++ '%' :: 'd' :: " bytes".toList from rfl]
    exact cstr_appended_bytesLog (by decide) (by decide) (by decide) s ctx hc hr hr'
  · rw [execLog, klogPrintfLevel, cstr_appended_msg]
    dsimp only [LogCall.at]
    rw [renderCode_exec, List.take_of_length_le]
    simp only [List.length_append, show "exec: ".toList.length = 6 from rfl]
    omega

theorem kernel_lines_logged_whole_boot :
    (fixedCall 0).cpu < ncpu ∧
    (∀ parent child : ℤ, -2 ^ 31 < parent → parent < 2 ^ 31 → -2 ^ 31 < child → child < 2 ^ 31 →
      cstr (appended (klogInit (fixedCall 0)) (forkLog (klogInit (fixedCall 0)) (fixedCall 0)
        parent child) ⟨0, by decide⟩).msg =
        "fork: pid ".toList ++ decimalText parent ++ " created child ".toList ++
          decimalText child) ∧
    (∀ pid : ℤ, -2 ^ 31 < pid → pid < 2 ^ 31 →
      cstr (appended (klogInit (fixedCall 0)) (exitLog (klogInit (fixedCall 0)) (fixedCall 0) pid)
        ⟨0, by decide⟩).msg = "exit: pid ".toList ++ decimalText pid ++ " exiting".toList) ∧
    (∀ result : ℤ, 64 ≤ result → result < 2 ^ 31 →
      cstr (appended (klogInit (fixedCall 0)) (sysReadLog (klogInit (fixedCall 0)) (fixedCall 0)
        result) ⟨0, by decide⟩).msg = "read: ".toList ++ decimalText result ++ " bytes".toList) ∧
    (∀ result : ℤ, 64 ≤ result → result < 2 ^ 31 →
      cstr (appended (klogInit (fixedCall 0)) (sysWriteLog (klogInit (fixedCall 0)) (fixedCall 0)
        result) ⟨0, by decide⟩).msg = "write: ".toList ++ decimalText result ++ " bytes".toList) ∧
    (∀ name : UInt32, (strText (fixedCall 0).strAt name).length ≤ 15 →
      cstr (appended (klogInit (fixedCall 0)) (execLog (klogInit (fixedCall 0)) (fixedCall 0) name)
        ⟨0, by decide⟩).msg = "exec: ".toList ++ strText (fixedCall 0).strAt name) :=
  ⟨by decide, kernel_lines_logged_whole (klogInit (fixedCall 0)) (fixedCall 0) (by decide)⟩

end Klog
