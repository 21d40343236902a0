import AdaOS.TerminalRuns

namespace AdaOS
set_option autoImplicit true

variable {s s' : Shell}

def Shell.traced (s : Shell) (trace : List SerialEvent) : Shell := { s with trace := trace }

theorem Shell.store_traced (h : s.store index byte = .ok s') (trace : List SerialEvent) :
    (s.traced trace).store index byte = .ok (s'.traced trace) := by
  by_cases hlt : index < 255
  · rw [store_of_lt _ _ hlt] at h
    cases h
    exact store_of_lt _ _ hlt
  · rw [store_of_le _ _ (Nat.not_lt.1 hlt)] at h
    cases h

theorem Shell.memset_traced (n : Nat) (h : s.memset index n = .ok s') (trace : List SerialEvent) :
    (s.traced trace).memset index n = .ok (s'.traced trace) := by
  induction n generalizing s index with
  | zero =>
    cases h
    rfl
  | succ n ih =>
    obtain ⟨s₁, hstore, hrest⟩ := bind_ok h
    rw [memset, store_traced hstore, bind_of_ok rfl]
    exact ih hrest

theorem Shell.echo_traced (s : Shell) (byte : BitVec 8) (trace : List SerialEvent) :
    ∃ trace', (s.traced trace).echo byte = s.traced trace' := by
  rw [echo]
  split
  · exact ⟨_, rfl⟩
  · exact ⟨_, rfl⟩

namespace Printf.Terminal
variable {σ : Type} {env : Surroundings σ} {t t' : Terminal σ}

theorem mirror_shell {console : Console} (h : t.mirror env wait console = .ok t') :
    t'.shell = t.shell := by
  obtain ⟨port, _, hret⟩ := bind_ok h
  cases hret
  rfl

theorem perform_shell {func : Command} (h : t.perform env wait fuel context func = .ok t') :
    t'.shell = t.shell := by
  cases func with
  | clear =>
    obtain ⟨console, _, hmirror⟩ := bind_ok h
    exact mirror_shell hmirror
  | time =>
    obtain ⟨⟨buf, console, heap⟩, _, hrest⟩ := bind_ok h
    obtain ⟨t₁, hmirror, hrest⟩ := bind_ok hrest
    obtain ⟨port, _, hret⟩ := bind_ok hrest
    have hshell := mirror_shell hmirror
    cases hret
    exact hshell
  | _ =>
    obtain ⟨port, _, hret⟩ := bind_ok h
    cases hret
    rfl

theorem answer_shell (h : t.answer env wait fuel context = .ok t') : t'.shell = t.shell := by
  rw [answer] at h
  split at h
  · exact perform_shell h
  · split_ifs at h
    · obtain ⟨port, _, hret⟩ := bind_ok h
      cases hret
      rfl
    · cases h
      rfl

theorem enter_shell (h : t.enter env wait fuel context = .ok t') (trace : List SerialEvent) :
    ∃ trace', (t.shell.traced trace).enter = .ok (t'.shell.traced trace') := by
  obtain ⟨t₁, hanswer, hrest⟩ := bind_ok h
  obtain ⟨shell, hmemset, hrest⟩ := bind_ok hrest
  obtain ⟨port, _, hret⟩ := bind_ok hrest
  cases hret
  obtain ⟨trace₁, htests, _⟩ := (t.shell.traced trace).answer_spec
  rw [answer_shell hanswer] at hmemset
  rw [Shell.enter, htests]
  exact ⟨_, bind_of_ok (Shell.memset_traced _ hmemset trace₁) _⟩

/-- A handler that returns has done to the line what the shell on its own does. -/
theorem rs232Irq_shell (h : t.rs232Irq env wait fuel context byte = .ok t')
    (trace : List SerialEvent) :
    ∃ trace', AdaOS.rs232Irq (t.shell.traced trace) byte = .ok (t'.shell.traced trace') := by
  obtain ⟨trace₁, hecho⟩ := t.shell.echo_traced byte trace
  rw [rs232Irq] at h
  rw [AdaOS.rs232Irq, hecho]
  by_cases hidle : byte ≠ carriageReturn ∧ ¬t.shell.terminalRunning
  · rw [if_pos hidle] at h
    cases h
    exact ⟨trace, if_pos hidle⟩
  rw [if_neg hidle] at h
  rw [if_neg (show ¬(_ ∧ ¬(t.shell.traced trace).terminalRunning) from hidle)]
  by_cases hback : byte = backspace
  · rw [if_pos hback] at h ⊢
    by_cases hempty : t.shell.bufferIndex = 0
    · rw [if_pos hempty] at h
      cases h
      exact ⟨trace, if_pos hempty⟩
    · rw [if_neg hempty] at h
      obtain ⟨shell, hstore, hret⟩ := bind_ok h
      cases hret
      rw [if_neg (show ¬(t.shell.traced trace).bufferIndex = 0 from hempty)]
      exact ⟨trace₁, bind_of_ok (Shell.store_traced hstore trace₁) _⟩
  · rw [if_neg hback] at h ⊢
    obtain ⟨shell, hstore, hrest⟩ := bind_ok h
    have hstored := Shell.store_traced hstore trace₁
    change ∃ trace', ((t.shell.traced trace₁).store t.shell.bufferIndex.toNat byte >>= _) = _
    rw [hstored, bind_of_ok rfl]
    by_cases hreturn : byte = carriageReturn
    · rw [if_pos hreturn] at hrest
      rw [if_pos hreturn]
      exact enter_shell hrest trace₁
    · rw [if_neg hreturn] at hrest
      cases hrest
      exact ⟨trace₁, if_neg hreturn⟩

/-- The line goes the same way in a session that comes to its end as in the shell on its own. -/
theorem run_shell (calls : List (InterruptCpuStatus × BitVec 8))
    (h : t.run env wait fuel calls = .ok t') (trace : List SerialEvent) :
    ∃ trace', (t.shell.traced trace).run (typed calls) = .ok (t'.shell.traced trace') := by
  induction calls generalizing t trace with
  | nil =>
    cases h
    exact ⟨trace, rfl⟩
  | cons call calls ih =>
    obtain ⟨t₁, hcall, hrest⟩ := bind_ok h
    obtain ⟨trace₁, hshell⟩ := rs232Irq_shell hcall trace
    obtain ⟨trace', hrun⟩ := ih hrest trace₁
    exact ⟨trace', (bind_of_ok hshell _).trans hrun⟩

end Printf.Terminal

end AdaOS
