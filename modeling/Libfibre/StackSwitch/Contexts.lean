import Libfibre.StackSwitch.Freds
import Mathlib.Data.List.Forall2

/-! What every switch leaves as it was, over all orders of switches: the contexts of the freds that are
    suspended, and where their post-switch functions have run. -/

namespace Libfibre.StackSwitch

open Libfibre.X86 Transition

section Contexts
variable {F : Type} {L : Layout F} {σ : Addr}

/-- The context `c` is the one that the machine is in, in the post-switch function or after it. -/
structure Resumed (L : Layout F) (s : Sys F) (c : State) : Prop where
  regs : ∀ r ∈ calleeSaved, s.mach.reg r = c.reg r
  stack : ∀ a, L.area a = .stack s.current → c.reg .rsp ≤ a → s.mach.mem a = c.mem a
  entered : L.post s.mach.rip = true → s.mach.reg .rsp = c.reg .rsp
  returned : L.post s.mach.rip = false →
    s.mach.reg .rsp = c.reg .rsp + 8 ∧ s.mach.rip = load c.mem (c.reg .rsp)

/-- The post-switch function of the call `k` was entered with the switched-out fred as argument, on the
    stack of the next one, in the context that this was to go on in. -/
def Ran (L : Layout F) (k : Call F) (e : Entry) : Prop :=
  e.rip = k.postFunc ∧ e.rdi = L.self k.prev ∧ L.area e.rsp = .stack k.next ∧
    ∃ c, k.context = some c ∧ e.rsp = c.reg .rsp

/-! ### The invariant -/

/-- INVARIANT: a suspended fred's frame is on its stack, as it was saved. -/
structure Inv (L : Layout F) (s : Sys F) : Prop where
  current : s.saved s.current = none
  suspended : ∀ g c, s.saved g = some c → Suspended L s.mach.mem g c
  resumed : ∀ c, s.resumed = some c → Resumed L s c
  left : ∀ f e, s.left f = some e → f = s.current ∨ s.saved f = some e
  again : ∀ c, s.resumed = some c → ∀ e, s.left s.current = some e → e = c
  /-- the return address is part of the stack that is kept -/
  ret : ∀ c, s.resumed = some c →
    Room L s.current (c.reg .rsp) 8 ∧ L.post (load c.mem (c.reg .rsp)) = false
  ran : L.post s.mach.rip = false → List.Forall₂ (Ran L) s.calls s.entries
  entered : L.post s.mach.rip = true → ∃ done k, s.calls = done ++ [k] ∧
    List.Forall₂ (Ran L) done s.entries ∧ k.context = s.resumed ∧
    Ran L k ⟨s.mach.rip, s.mach.reg .rdi, s.mach.reg .rsp⟩

namespace Inv

variable {s : Sys F}

theorem ne_current (h : Inv L s) {g : F} {c : State} (hg : s.saved g = some c) : g ≠ s.current := by
  rintro rfl
  rw [h.current] at hg
  cases hg

theorem of_init (h : init L s) : Inv L s := by
  obtain ⟨hrip, hsaved, hresumed, hleft, hcalls, hentries⟩ := h
  refine ⟨congrFun hsaved _, ?_, ?_, ?_, ?_, ?_, ?_, ?_⟩
  · intro g c hg
    rw [hsaved] at hg
    cases hg
  · intro c hc
    rw [hresumed] at hc
    cases hc
  · intro f e he
    rw [hleft] at he
    cases he
  · intro c hc
    rw [hresumed] at hc
    cases hc
  · intro c hc
    rw [hresumed] at hc
    cases hc
  · intro _
    rw [hcalls, hentries]
    exact .nil
  · intro hpost
    rw [hrip] at hpost
    cases hpost

theorem code (h : Inv L s) {t : State} (hpost : L.post s.mach.rip = false)
    (hk : Keeps L σ s (.code t)) : Inv L (s.code t) := by
  obtain ⟨ht, hmem⟩ := hk
  refine ⟨h.current, ?_, ?_, h.left, ?_, ?_, fun _ => h.ran hpost, ?_⟩
  · intro g c hg
    refine (h.suspended g c hg).congr fun a ha => ?_
    obtain ⟨hstack, hfield, hheap⟩ := foreign (h.ne_current hg) ha
    exact hmem a hstack hfield hheap
  · intro c hc
    cases hc
  · intro c hc
    cases hc
  · intro c hc
    cases hc
  · intro hrip
    have hrip : L.post t.rip = true := hrip
    rw [ht] at hrip
    cases hrip

end Inv

section Steps
variable [DecidableEq F] {s : Sys F} {g : F} {func arg1 arg2 arg3 : BitVec 64} {postFunc ret : Addr}

theorem Inv.setup (h : Inv L s) (hpost : L.post s.mach.rip = false)
    (hk : Keeps L σ s (.setup g func arg1 arg2 arg3 ret)) :
    Inv L (s.setup L σ g func arg1 arg2 arg3 ret) := by
  obtain ⟨hret, hσ, hg, hnone, hcur, hroom⟩ := hk
  refine ⟨(Function.update_of_ne hg.symm ..).trans h.current, ?_, ?_, ?_, ?_, ?_,
    fun _ => h.ran hpost, ?_⟩
  · intro f c hf
    rcases eq_or_ne f g with rfl | hfg
    · have hf := (Function.update_self ..).symm.trans hf
      rw [← Option.some.inj hf]
      exact setup_suspended hroom hσ
    · have hf := (Function.update_of_ne hfg ..).symm.trans hf
      refine (h.suspended f c hf).congr fun a ha => setup_frame ?_ ?_ (field_apart hfg ha)
      · exact stack_apart hcur (h.ne_current hf) ha
      · exact stack_apart (hroom.mono (by omega)) hfg ha
  · intro c hc
    cases hc
  · intro f e he
    refine (h.left f e he).imp_right fun hf => ?_
    have hfg : f ≠ g := by
      rintro rfl
      rw [hnone] at hf
      cases hf
    exact (Function.update_of_ne hfg ..).trans hf
  · intro c hc
    cases hc
  · intro c hc
    cases hc
  · intro hrip
    rw [setup_rip hcur hg hroom, hret] at hrip
    cases hrip

theorem Inv.switch (h : Inv L s) (hpost : L.post s.mach.rip = false)
    (hk : Keeps L σ s (.switch g postFunc ret)) : Inv L (s.switch L g postFunc ret) := by
  obtain ⟨hfunc, hret, hg, hsome, hroom⟩ := hk
  obtain ⟨hrip, hrdi⟩ := switch_jumps L s g postFunc ret
  have hentered : L.post (s.switch L g postFunc ret).mach.rip = true := by rw [hrip, hfunc]
  -- whatever is switched to is resumed in its context
  have hresumed : ∀ c, s.saved g = some c → Resumed L (s.switch L g postFunc ret) c ∧
      Room L g (c.reg .rsp) 8 ∧ L.post (load c.mem (c.reg .rsp)) = false := by
    intro c hc
    have hnow := h.suspended g c hc
    have hnext := switch_suspended_next postFunc ret hnow hg hroom
    obtain ⟨hregs, hrsp⟩ := switch_restores postFunc ret hnow hg hroom
    refine ⟨⟨hregs, hnext.live, fun _ => hrsp, fun hback => ?_⟩, ?_, hnow.ret⟩
    · rw [hentered] at hback
      cases hback
    · rw [hnow.frame.rsp]
      exact hnow.room.ret
  refine ⟨Function.update_self .., ?_, fun c hc => (hresumed c hc).1, ?_, ?_,
    fun c hc => (hresumed c hc).2, ?_, ?_⟩
  · intro f c hf
    have hfg : f ≠ g := by
      rintro rfl
      have hnone := (Function.update_self ..).symm.trans hf
      cases hnone
    have hf := (Function.update_of_ne hfg ..).symm.trans hf
    rcases eq_or_ne f s.current with rfl | hfc
    · have hf := (Function.update_self ..).symm.trans hf
      rw [← Option.some.inj hf]
      exact switch_suspended hroom hret
    · have hf := (Function.update_of_ne hfc ..).symm.trans hf
      exact (h.suspended f c hf).congr fun a ha =>
        switch_frame (stack_apart hroom hfc ha) (field_apart hfc ha)
  · intro f e he
    rcases eq_or_ne f g with hfg | hfg
    · exact .inl hfg
    refine .inr ((Function.update_of_ne hfg ..).trans ?_)
    rcases eq_or_ne f s.current with rfl | hfc
    · have he := (Function.update_self ..).symm.trans he
      exact (Function.update_self ..).trans he
    · have he := (Function.update_of_ne hfc ..).symm.trans he
      exact (Function.update_of_ne hfc ..).trans ((h.left f e he).resolve_left hfc)
  · intro c hc e he
    have he := (Function.update_of_ne hg ..).symm.trans he
    exact Option.some.inj (((h.left g e he).resolve_left hg).symm.trans hc)
  · intro hback
    rw [hentered] at hback
    cases hback
  · intro _
    obtain ⟨c, hc⟩ := Option.isSome_iff_exists.mp hsome
    obtain ⟨hres, htop, -⟩ := hresumed c hc
    refine ⟨s.calls, ⟨s.current, g, postFunc, s.saved g⟩, rfl, h.ran hpost, rfl, hrip, hrdi, ?_, c, hc,
      hres.entered hentered⟩
    have hin : Within (c.reg .rsp) (c.reg .rsp) 8 := by
      rw [Within, BitVec.sub_self]
      decide
    rw [hres.entered hentered]
    exact htop.within hin

end Steps

section Post
variable {s : Sys F}

theorem Inv.post (h : Inv L s) (hpost : L.post s.mach.rip = true) {t : State}
    (hk : Keeps L σ s (.post t)) : Inv L (s.post t) := by
  obtain ⟨⟨hkept, hrsp, hrip⟩, hmem⟩ := hk
  obtain ⟨done, k, hcalls, hdone, hcontext, hran⟩ := h.entered hpost
  obtain ⟨c, hc, -⟩ := hran.2.2.2
  rw [hcontext] at hc
  have hres := h.resumed c hc
  obtain ⟨htop, hret⟩ := h.ret c hc
  have hsp := hres.entered hpost
  -- it returns to where the call in `c` has come from
  have hback : t.rip = load c.mem (c.reg .rsp) := by
    rw [hrip, hsp]
    exact load_congr fun a ha => hres.stack a (htop a ha).1 (htop a ha).2
  have hout : L.post t.rip = false := by rw [hback, hret]
  refine ⟨h.current, ?_, ?_, h.left, h.again, h.ret, ?_, ?_⟩
  · intro g b hg
    refine (h.suspended g b hg).congr fun a ha => ?_
    obtain ⟨hstack, -, hheap⟩ := foreign (h.ne_current hg) ha
    exact hmem a hheap fun hown => hstack hown.1
  · intro b hb
    obtain rfl : c = b := Option.some.inj (hc.symm.trans hb)
    refine ⟨fun r hr => (hkept r hr).trans (hres.regs r hr), ?_, ?_, fun _ => ⟨?_, hback⟩⟩
    · intro a ha hlive
      refine (hmem a ?_ ?_).trans (hres.stack a ha hlive)
      · rw [ha]
        nofun
      · rintro ⟨-, hbelow⟩
        rw [hsp] at hbelow
        exact absurd hlive (BitVec.not_le.mpr hbelow)
    · intro hrip
      have hrip : L.post t.rip = true := hrip
      rw [hout] at hrip
      cases hrip
    · rw [← hsp]
      exact hrsp
  · intro _
    have hcalls : (s.post t).calls = done ++ [k] := hcalls
    rw [hcalls]
    exact List.rel_append hdone (.cons hran .nil)
  · intro hrip
    have hrip : L.post t.rip = true := hrip
    rw [hout] at hrip
    cases hrip

end Post

/-! ### Any switches, in any order -/

section Runs
variable [DecidableEq F] {s s' : Sys F}

theorem Inv.step {a : Action F} (h : Inv L s) (hk : Keeps L σ s a) (hs : step L σ s a = some s') :
    Inv L s' := by
  cases a with
  | code t =>
    obtain ⟨hpost, rfl⟩ := step_own hs
    exact h.code hpost hk
  | setup g func arg1 arg2 arg3 ret =>
    obtain ⟨hpost, rfl⟩ := step_own hs
    exact h.setup hpost hk
  | switch g postFunc ret =>
    obtain ⟨hpost, rfl⟩ := step_own hs
    exact h.switch hpost hk
  | post t =>
    obtain ⟨hpost, rfl⟩ := step_post hs
    exact h.post hpost hk

theorem Inv.of_run {as : List (Action F)} (h : Run (system L σ) (Keeps L σ) as s) : Inv L s :=
  h.inv (fun _ => of_init) fun _ _ _ => Inv.step

/-- MAIN: whatever the freds do and in whatever order they switch, a fred that has been switched to is in
    the context in which it has last called `stackSwitch`: in the post-switch function with its own stack
    pointer, and after that where it has called. The post-switch function of each call has run once, or is
    about to, on the next fred's stack and with the previous fred as argument. -/
theorem context_switch {as : List (Action F)} (h : Run (system L σ) (Keeps L σ) as s) :
    (∀ c, s.resumed = some c →
      Resumed L s c ∧ ∀ e, s.left s.current = some e → e = c) ∧
    (L.post s.mach.rip = false → List.Forall₂ (Ran L) s.calls s.entries) ∧
    (L.post s.mach.rip = true → s.resumed.isSome ∧
      ∃ done k, s.calls = done ++ [k] ∧ List.Forall₂ (Ran L) done s.entries ∧ k.context = s.resumed ∧
        Ran L k ⟨s.mach.rip, s.mach.reg .rdi, s.mach.reg .rsp⟩) := by
  have hinv := Inv.of_run h
  refine ⟨fun c hc => ⟨hinv.resumed c hc, hinv.again c hc⟩, hinv.ran, fun hpost => ?_⟩
  obtain ⟨done, k, hcalls, hdone, hcontext, hran⟩ := hinv.entered hpost
  obtain ⟨c, hc, -⟩ := hran.2.2.2
  refine ⟨?_, done, k, hcalls, hdone, hcontext, hran⟩
  rw [← hcontext, hc]
  rfl

end Runs

end Contexts

/-! Two freds. The first is running, the second has got its stack: it is set up and switched to, and its
    first function switches back. -/

/-- Two freds, each with its object and its stack. -/
def twoArea (a : Addr) : Area Bool :=
  if Within a 0x1000 8 then .field false
  else if Within a 0x2000 8 then .field true
  else if Within a 0x10000 0x800 then .stack false
  else if Within a 0x20000 0x1000 then .stack true
  else .heap

theorem twoArea_field (f : Bool) (a : Addr) :
    twoArea a = .field f ↔ Within a (if f then 0x2000 else 0x1000) 8 := by
  have hapart : Within a 0x1000 8 → ¬ Within a 0x2000 8 := by
    rw [Within, Within]
    bv_omega
  rw [twoArea]
  cases f <;> split_ifs <;> simp_all

/-- Their layout. -/
def twoFreds : Layout Bool where
  area := twoArea
  self f := if f then 0x2008 else 0x1008
  slot f := if f then 0x2000 else 0x1000
  post a := a == 0x500
  field := twoArea_field

theorem twoFreds_room_false {p : Addr} {n : ℕ} (hlo : 0x10000 ≤ p.toNat) (hhi : p.toNat + n ≤ 0x10800) :
    Room twoFreds false p n := by
  intro a ha
  rw [Within] at ha
  have h1 : ¬ Within a 0x1000 8 := by rw [Within]; bv_omega
  have h2 : ¬ Within a 0x2000 8 := by rw [Within]; bv_omega
  have h3 : Within a 0x10000 0x800 := by rw [Within]; bv_omega
  refine ⟨?_, by bv_omega⟩
  change twoArea a = .stack false
  rw [twoArea, if_neg h1, if_neg h2, if_pos h3]

theorem twoFreds_room_true {p : Addr} {n : ℕ} (hlo : 0x20000 ≤ p.toNat) (hhi : p.toNat + n ≤ 0x21000) :
    Room twoFreds true p n := by
  intro a ha
  rw [Within] at ha
  have h1 : ¬ Within a 0x1000 8 := by rw [Within]; bv_omega
  have h2 : ¬ Within a 0x2000 8 := by rw [Within]; bv_omega
  have h3 : ¬ Within a 0x10000 0x800 := by rw [Within]; bv_omega
  have h4 : Within a 0x20000 0x1000 := by rw [Within]; bv_omega
  refine ⟨?_, by bv_omega⟩
  change twoArea a = .stack true
  rw [twoArea, if_neg h1, if_neg h2, if_neg h3, if_pos h4]

/-- Fred `false` runs, with a stack of its own. -/
def boot : Sys Bool where
  mach :=
    { reg := fun r => if r = .rsp then 0x10700 else 0
      mem := store (fun _ => 0) 0x2000 0x21000
      rip := 0x600
      accesses := [] }
  current := false
  saved _ := none
  resumed := none
  left _ := none
  calls := []
  entries := []

/-- It has set up fred `true`. -/
def bootSetup : Sys Bool := boot.setup twoFreds 0x700 true 0x800 1 2 3 0x610

/-- It has switched there. -/
def bootSwitch : Sys Bool := bootSetup.switch twoFreds true 0x500 0x620

/-- The post function has returned. -/
def bootPost : Sys Bool := bootSwitch.post (run bootSwitch.mach [.retq])

/-- Fred `true` has switched back. -/
def backSwitch : Sys Bool := bootPost.switch twoFreds false 0x500 0x720

/-- The post function has returned again. -/
def backPost : Sys Bool := backSwitch.post (run backSwitch.mach [.retq])

theorem keeps_retq (s : Sys Bool) : Keeps twoFreds 0x700 s (.post (run s.mach [.retq])) :=
  ⟨returned_retq _, fun _ _ _ => rfl⟩

theorem backPost_run : Run (system twoFreds 0x700) (Keeps twoFreds 0x700)
    [.setup true 0x800 1 2 3 0x610, .switch true 0x500 0x620, .post (run bootSwitch.mach [.retq]),
     .switch false 0x500 0x720, .post (run backSwitch.mach [.retq])] backPost := by
  have hsetup : Keeps twoFreds 0x700 boot (.setup true 0x800 1 2 3 0x610) :=
    ⟨by decide, by decide, by decide, rfl, twoFreds_room_false (by decide +kernel) (by decide +kernel),
      twoFreds_room_true (by decide +kernel) (by decide +kernel)⟩
  have hswitch : Keeps twoFreds 0x700 bootSetup (.switch true 0x500 0x620) :=
    ⟨by decide, by decide, by decide, rfl, twoFreds_room_false (by decide +kernel) (by decide +kernel)⟩
  have hback : Keeps twoFreds 0x700 bootPost (.switch false 0x500 0x720) :=
    ⟨by decide, by decide, by decide, rfl, twoFreds_room_true (by decide +kernel) (by decide +kernel)⟩
  have s1 : step twoFreds 0x700 boot (.setup true 0x800 1 2 3 0x610) = some bootSetup := rfl
  have s2 : step twoFreds 0x700 bootSetup (.switch true 0x500 0x620) = some bootSwitch :=
    if_neg (by decide +kernel)
  have s3 : step twoFreds 0x700 bootSwitch (.post (run bootSwitch.mach [.retq])) = some bootPost :=
    if_pos (by decide +kernel)
  have s4 : step twoFreds 0x700 bootPost (.switch false 0x500 0x720) = some backSwitch :=
    if_neg (by decide +kernel)
  have s5 : step twoFreds 0x700 backSwitch (.post (run backSwitch.mach [.retq])) = some backPost :=
    if_pos (by decide +kernel)
  have h0 : Run (system twoFreds 0x700) (Keeps twoFreds 0x700) [] boot :=
    .start ⟨rfl, rfl, rfl, rfl, rfl, rfl⟩
  exact ((((h0.step hsetup s1).step hswitch s2).step (keeps_retq _) s3).step hback s4).step (keeps_retq _) s5

/-- The first fred goes on where it has called, with its own stack pointer. -/
theorem context_switch_back :
    (∀ c, backPost.resumed = some c →
      Resumed twoFreds backPost c ∧ ∀ e, backPost.left backPost.current = some e → e = c) ∧
    (twoFreds.post backPost.mach.rip = false →
      List.Forall₂ (Ran twoFreds) backPost.calls backPost.entries) ∧
    backPost.resumed.isSome ∧ (backPost.left backPost.current).isSome ∧ backPost.calls.length = 2 ∧
    backPost.mach.rip = 0x620 ∧ backPost.mach.reg .rsp = 0x10700 := by
  obtain ⟨hresumed, hran, -⟩ := context_switch backPost_run
  exact ⟨hresumed, hran, rfl, rfl, rfl, by decide +kernel, by decide +kernel⟩

end Libfibre.StackSwitch
