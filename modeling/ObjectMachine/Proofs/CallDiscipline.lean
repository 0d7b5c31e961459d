import ObjectMachine.Proofs.Transition

namespace ObjectMachine

/-!
# Calls and returns

A method runs in a frame of its own, which refers to the frame that waits for its result. This
file shows that in every state a machine can be brought to, that frame is the one right beneath,
and that it is waiting:

* `Machine.Disciplined` — the invariant on the stack and its counters;
* `Machine.Moves` — all an operation can do to the stack;
* `Machine.Disciplined.of_moves` — the invariant is kept by each of these moves;
* `Machine.Descends` — a frame keeps what lies beneath it for as long as it is scheduled, so that
  the frame a call leaves behind is the one its return finds;
* `Machine.Called`, `Machine.Returned` — what a call and a return make of the frames they are
  about;
* `call_return_discipline` — the invariant for all orders of operations, and what follows for
  calls, returns and their faults.
-/

/-! ### The invariant -/

/-- A frame that waits for the result of a call. -/
def Frame.Waits (g : Frame) : Prop :=
  ∃ target, g.stmt = .storeReturn target ∨ ∃ rest, g.stmt = .seq (.storeReturn target) rest

/-- The caller of `f`, if it has one, is the first frame of `below`, and it waits. -/
def Frame.RestsOn (f : Frame) (below : List Frame) : Prop :=
  f.caller = none ∨ ∃ g rest, below = g :: rest ∧ f.caller = some g.ref ∧ g.Waits

/-- Every frame of a stack rests on the frames beneath it. -/
def Linked (stack : List Frame) : Prop :=
  ∀ above f below, stack = above ++ f :: below → f.RestsOn below

/-- The invariant of calls and returns, of a stack and the counters its frames are named by. -/
structure Disciplined (stack : List Frame) (lastFrame lastKey : Nat) : Prop where
  linked : Linked stack
  ids_distinct : (stack.map Frame.id).Nodup
  ids_le : ∀ f ∈ stack, f.id ≤ lastFrame
  keys_distinct : (stack.map Frame.key).Nodup
  keys_le : ∀ f ∈ stack, f.key ≤ lastKey

/-- The invariant of calls and returns. -/
def Machine.Disciplined (m : Machine) : Prop :=
  ObjectMachine.Disciplined m.stack m.lastFrame m.lastKey

theorem Linked.nil : Linked [] := by
  intro above f below h
  simp at h

theorem linked_cons {f : Frame} {below : List Frame} :
    Linked (f :: below) ↔ f.RestsOn below ∧ Linked below := by
  constructor
  · intro h
    refine ⟨h [] f below rfl, fun above g rest hb => h (f :: above) g rest ?_⟩
    rw [hb]
    rfl
  · rintro ⟨hf, hb⟩ above g rest h
    rcases List.cons_eq_append_iff.1 h with ⟨rfl, h⟩ | ⟨above', rfl, h⟩
    · obtain ⟨rfl, rfl⟩ := List.cons.inj h
      exact hf
    · exact hb above' g rest (List.cons.inj h).2

/-- A frame that waits says where it wants the result. -/
theorem Frame.Waits.awaiting {g : Frame} (h : g.Waits) :
    ∃ target rest, g.stmt.awaiting? = some (target, rest) := by
  obtain ⟨target, hs | ⟨rest, hs⟩⟩ := h
  · exact ⟨target, none, by rw [hs]; rfl⟩
  · exact ⟨target, some rest, by rw [hs]; rfl⟩

/-- A caller right beneath is found there. -/
theorem Frame.callerIn_cons {f g : Frame} (h : f.caller = some g.ref) (rest : List Frame) :
    f.callerIn (g :: rest) = .waiting g := by
  rw [Frame.callerIn, h]
  simp [Frame.ref]

/-- The caller of a frame that rests on the frames beneath it is found right there. -/
theorem Frame.RestsOn.callerIn {f : Frame} {below : List Frame} (h : f.RestsOn below) :
    f.callerIn below = .none ∨
      ∃ g rest, below = g :: rest ∧ f.caller = some g.ref ∧ g.Waits ∧
        f.callerIn below = .waiting g := by
  rcases h with h | ⟨g, rest, rfl, hc, hw⟩
  · left
    rw [Frame.callerIn, h]
  · right
    exact ⟨g, rest, rfl, hc, hw, Frame.callerIn_cons hc rest⟩

/-- Only the reference of a frame to its caller matters for what it rests on. -/
theorem Frame.RestsOn.congr {f f' : Frame} {below : List Frame} (h : f.RestsOn below)
    (hc : f'.caller = f.caller) : f'.RestsOn below := by
  rw [Frame.RestsOn, hc]
  exact h

namespace Disciplined

variable {stack below : List Frame} {f : Frame} {lastFrame lastKey lastFrame' lastKey' : Nat}

theorem nil (lastFrame lastKey : Nat) : Disciplined [] lastFrame lastKey where
  linked := Linked.nil
  ids_distinct := by simp
  ids_le := by simp
  keys_distinct := by simp
  keys_le := by simp

theorem tail (h : Disciplined (f :: below) lastFrame lastKey) :
    Disciplined below lastFrame lastKey where
  linked := (linked_cons.1 h.linked).2
  ids_distinct := (List.nodup_cons.1 h.ids_distinct).2
  ids_le g hg := h.ids_le g (List.mem_cons_of_mem _ hg)
  keys_distinct := (List.nodup_cons.1 h.keys_distinct).2
  keys_le g hg := h.keys_le g (List.mem_cons_of_mem _ hg)

/-- No frame beneath the top one has its id. -/
theorem id_notMem (h : Disciplined (f :: below) lastFrame lastKey) : f.id ∉ below.map Frame.id :=
  (List.nodup_cons.1 h.ids_distinct).1

/-- An id that is still to be handed out is on no frame. -/
theorem fresh_notMem (h : Disciplined stack lastFrame lastKey) {id : Nat} (hid : lastFrame < id) :
    id ∉ stack.map Frame.id := by
  intro hmem
  obtain ⟨g, hg, rfl⟩ := List.mem_map.1 hmem
  have hle := h.ids_le g hg
  omega

/-- A frame with a fresh key can be put on top if it rests on what is there. -/
theorem cons (h : Disciplined below lastFrame lastKey) (hr : f.RestsOn below)
    (hid : f.id ∉ below.map Frame.id) (hle : f.id ≤ lastFrame') (hkey : lastKey < f.key)
    (hkle : f.key ≤ lastKey') (hmono : lastFrame ≤ lastFrame') :
    Disciplined (f :: below) lastFrame' lastKey' where
  linked := linked_cons.2 ⟨hr, h.linked⟩
  ids_distinct := List.nodup_cons.2 ⟨hid, h.ids_distinct⟩
  ids_le := by
    intro g hg
    rcases List.mem_cons.1 hg with rfl | hg
    · exact hle
    · have := h.ids_le g hg
      omega
  keys_distinct := by
    refine List.nodup_cons.2 ⟨fun hmem => ?_, h.keys_distinct⟩
    -- all keys so far are at most `lastKey`
    obtain ⟨g, hg, hgf⟩ := List.mem_map.1 hmem
    have := h.keys_le g hg
    omega
  keys_le := by
    intro g hg
    rcases List.mem_cons.1 hg with rfl | hg
    · exact hkle
    · have := h.keys_le g hg
      omega

/-- The caller that the top frame finds is right beneath it. -/
theorem below_of_callerIn (h : Disciplined (f :: below) lastFrame lastKey) {g : Frame}
    (hg : f.callerIn below = .waiting g) :
    ∃ rest, below = g :: rest ∧ f.caller = some g.ref ∧ g.Waits := by
  rcases (linked_cons.1 h.linked).1.callerIn with hnone | ⟨g', rest, hb, hc, hw, hg'⟩
  · rw [hnone] at hg
    exact absurd hg (by simp)
  · obtain rfl : g' = g := by simpa [hg'] using hg
    exact ⟨rest, hb, hc, hw⟩

end Disciplined

/-! ### What an operation does to the stack -/

/-- A frame that replaces another one: a different statement, but the same id, owner and
    caller. -/
structure Frame.Replaces (f' f : Frame) : Prop where
  id : f'.id = f.id
  owner : f'.owner = f.owner
  caller : f'.caller = f.caller

/-- All that an operation can do to the stack of `m` and to the counters of its frames. -/
inductive Machine.Moves (m m' : Machine) : Prop where
  | keep (hs : m'.stack = m.stack) (hf : m'.lastFrame = m.lastFrame)
      (hk : m'.lastKey = m.lastKey)
  | clear (hs : m'.stack = []) (hf : m'.lastFrame = m.lastFrame)
  | push {f : Frame} (hs : m'.stack = f :: m.stack) (hid : f.id = m.lastFrame + 1)
      (hkey : f.key = m.lastKey + 1) (hc : f.caller = none)
      (hf : m'.lastFrame = m.lastFrame + 1) (hk : m'.lastKey = m.lastKey + 1)
  | drop {f : Frame} {below : List Frame} (hm : m.stack = f :: below) (hs : m'.stack = below)
      (hf : m'.lastFrame = m.lastFrame) (hk : m'.lastKey = m.lastKey)
  | rewrite {f f' : Frame} {below : List Frame} (hm : m.stack = f :: below)
      (hs : m'.stack = f' :: below) (hr : f'.Replaces f) (hkey : f'.key = m.lastKey + 1)
      (hf : m'.lastFrame = m.lastFrame) (hk : m'.lastKey = m.lastKey + 1)
  | call {f g callee : Frame} {below : List Frame} (hm : m.stack = f :: below)
      (hs : m'.stack = callee :: g :: below) (hr : g.Replaces f) (hw : g.Waits)
      (hkey : g.key = m.lastKey + 1) (hc : callee.caller = some g.ref)
      (hcid : callee.id = m.lastFrame + 1) (hckey : callee.key = m.lastKey + 2)
      (hf : m'.lastFrame = m.lastFrame + 1) (hk : m'.lastKey = m.lastKey + 2)
  /-- The caller `g` has nothing left to run. -/
  | release {f g : Frame} {below : List Frame} (hm : m.stack = f :: below)
      (hg : f.callerIn below = .waiting g)
      (hs : m'.stack = below.eraseP fun h => h.key = g.key)
      (hf : m'.lastFrame = m.lastFrame) (hk : m'.lastKey = m.lastKey)
  /-- The caller `g` goes on as `g'`. -/
  | resume {f g g' : Frame} {below : List Frame} (hm : m.stack = f :: below)
      (hg : f.callerIn below = .waiting g)
      (hs : m'.stack = g' :: below.eraseP fun h => h.key = g.key) (hr : g'.Replaces g)
      (hl : g'.locals = g.locals) (hkey : g'.key = m.lastKey + 1)
      (hf : m'.lastFrame = m.lastFrame) (hk : m'.lastKey = m.lastKey + 1)

namespace Machine

variable {σ : Type} {kb : Option (KnowledgeBase σ)}

/-- Going on with the popped frame drops or rewrites it, whatever became of the heap and of the
    variables of the frame. -/
theorem moves_proceed {m : Machine} {f : Frame} {below : List Frame} (hm : m.stack = f :: below)
    (heap : Heap) (locals : Memory) (next : Option Stmt) :
    m.Moves (proceed { m.running below with heap := heap } { f with locals := locals } next) := by
  cases next with
  | none => exact .drop hm rfl rfl rfl
  | some s => exact .rewrite hm rfl ⟨rfl, rfl, rfl⟩ rfl rfl rfl

/-- The marker of a call says what it wants and what is left to run after it. -/
theorem awaiting_andThen (target : Option Location) (rest : Option Stmt) :
    ((Stmt.storeReturn target).andThen rest).awaiting? = some (target, rest) := by
  cases rest <;> rfl

/-- The marker of a call stays in front of what is left to run. -/
theorem waits_andThen (f : Frame) (key : Nat) (target : Option Location) (rest : Option Stmt) :
    Frame.Waits { f with key := key, stmt := (Stmt.storeReturn target).andThen rest } := by
  cases rest with
  | none => exact ⟨target, .inl rfl⟩
  | some s => exact ⟨target, .inr ⟨s, rfl⟩⟩

/-- Every effect moves the stack in one of the ways of `Moves`. -/
theorem moves_perform {m : Machine} {f : Frame} {below : List Frame} (hm : m.stack = f :: below)
    (rest : Option Stmt) (e : Effect)
    (he : ∀ g r, e = .resume g r → f.callerIn below = .waiting g) :
    m.Moves ((m.running below).perform f rest e) := by
  cases e with
  | finish => exact moves_proceed hm m.heap f.locals rest
  | pause => exact moves_proceed hm m.heap f.locals rest
  | print v => exact moves_proceed hm m.heap f.locals rest
  | setLocal name v => exact moves_proceed hm m.heap _ rest
  | setField r name v => exact moves_proceed hm _ f.locals rest
  | become s => exact moves_proceed hm m.heap f.locals (some (s.andThen rest))
  | create target cls fields =>
    exact moves_proceed hm (m.heap.create cls fields).2 f.locals (some (Stmt.andThen _ rest))
  | enlist target contents =>
    exact moves_proceed hm (m.heap.addList .null contents).2 f.locals
      (some (Stmt.andThen _ rest))
  | invoke target callee body locals =>
    exact .call hm rfl ⟨rfl, rfl, rfl⟩ (waits_andThen f _ target rest) rfl rfl rfl rfl rfl rfl
  | resume g r =>
    have hg := he g r rfl
    cases r with
    | none => exact .release hm hg rfl rfl rfl
    | some s => exact .resume hm hg rfl ⟨rfl, rfl, rfl⟩ rfl rfl rfl rfl

/-- A return resumes the caller that was found. -/
theorem Enacts.callerIn_of_resume {m : Machine} {f : Frame} {below : List Frame} {s s' : σ}
    {g : Frame} {r : Option Stmt} (h : Enacts kb m f below s (.resume g r) s') :
    f.callerIn below = .waiting g := by
  cases h with
  | act hw =>
    generalize f.stmt.head = x at hw
    cases hw with
    | ret hg _ _ => exact hg

/-- A step moves the stack in one of the ways of `Moves`. -/
theorem moves_step (m : Machine) (s : σ) : m.Moves (m.step kb s).machine := by
  cases hm : m.stack with
  | nil =>
    rw [step_nil hm]
    exact .keep rfl rfl rfl
  | cons f below =>
    by_cases hl : m.limitReached = true
    · rw [step_of_limitReached hm hl]
      exact .keep rfl rfl rfl
    · rw [step_eq hm (by simpa using hl)]
      cases he : m.effectOf kb f below s with
      | mk r s' =>
        cases r with
        | error fault => exact .drop hm rfl rfl rfl
        | ok e =>
          obtain ⟨-, henacts⟩ := enacts_of_effectOf he
          refine moves_perform hm _ e ?_
          rintro g r rfl
          exact henacts.callerIn_of_resume

/-- Scheduling a frame puts it on top, whatever became of the heap before. -/
theorem moves_push {m m' : Machine} (heap : Heap) {stmt : Stmt} {owner : Value} {locals : Memory}
    {f : Frame} (h : push { m with heap := heap } stmt owner locals = .ok (f, m')) :
    m.Moves m' := by
  rw [push] at h
  split at h
  · obtain ⟨rfl, rfl⟩ : _ = f ∧ _ = m' := by simpa using h
    exact .push rfl rfl rfl rfl rfl rfl
  · simp at h

/-- Every operation moves the stack in one of the ways of `Moves`. -/
theorem moves_operate (m : Machine) (op : Operation σ) : m.Moves (m.operate kb op) := by
  cases op with
  | start main =>
    rw [operate]
    split
    · rename_i f m' h
      exact moves_push (m.heap.create entryClass ∅).2 h
    · exact .keep rfl rfl rfl
  | push stmt owner locals =>
    rw [operate]
    split
    · rename_i f m' h
      exact moves_push m.heap h
    · exact .keep rfl rfl rfl
  | step s => exact moves_step m s
  | fork => exact .clear rfl rfl

/-! ### The invariant is kept -/

/-- A caller that was found right beneath the top frame is taken off there. -/
theorem eraseP_key_cons (g : Frame) (rest : List Frame) :
    ((g :: rest).eraseP fun h => h.key = g.key) = rest :=
  List.eraseP_cons_of_pos (by simp)

/-- Every move of the stack keeps the invariant. -/
theorem Disciplined.of_moves {m m' : Machine} (h : m.Disciplined) (hmoves : m.Moves m') :
    m'.Disciplined := by
  unfold Machine.Disciplined at h ⊢
  cases hmoves with
  | keep hs hf hk =>
    rw [hs, hf, hk]
    exact h
  | clear hs hf =>
    rw [hs]
    exact .nil _ _
  | @push f hs hid hkey hc hf hk =>
    rw [hs, hf, hk]
    exact h.cons (.inl hc) (h.fresh_notMem (by omega)) (by omega) (by omega) (by omega) (by omega)
  | drop hm hs hf hk =>
    rw [hm] at h
    rw [hs, hf, hk]
    exact h.tail
  | @rewrite f f' below hm hs hr hkey hf hk =>
    rw [hm] at h
    rw [hs, hf, hk]
    have hrests : f'.RestsOn below := (linked_cons.1 h.linked).1.congr hr.caller
    have hid : f'.id ∉ below.map Frame.id := hr.id ▸ h.id_notMem
    have hle : f'.id ≤ m.lastFrame := hr.id ▸ h.ids_le f (by simp)
    exact h.tail.cons hrests hid hle (by omega) (by omega) (by omega)
  | @call f g callee below hm hs hr hw hkey hc hcid hckey hf hk =>
    rw [hm] at h
    rw [hs, hf, hk]
    -- first the waiting frame in the place of the caller, then the method on top of it
    have hrests : g.RestsOn below := (linked_cons.1 h.linked).1.congr hr.caller
    have hid : g.id ∉ below.map Frame.id := hr.id ▸ h.id_notMem
    have hle : g.id ≤ m.lastFrame := hr.id ▸ h.ids_le f (by simp)
    have hwait : ObjectMachine.Disciplined (g :: below) m.lastFrame (m.lastKey + 1) :=
      h.tail.cons hrests hid hle (by omega) (by omega) (by omega)
    exact hwait.cons (.inr ⟨g, below, rfl, hc, hw⟩) (hwait.fresh_notMem (by omega)) (by omega)
      (by omega) (by omega) (by omega)
  | @release f g below hm hg hs hf hk =>
    rw [hm] at h
    -- the caller that is taken off the stack is the frame right beneath
    obtain ⟨rest, rfl, -, -⟩ := h.below_of_callerIn hg
    rw [hs, hf, hk, eraseP_key_cons]
    exact h.tail.tail
  | @resume f g g' below hm hg hs hr hl hkey hf hk =>
    rw [hm] at h
    obtain ⟨rest, rfl, -, -⟩ := h.below_of_callerIn hg
    rw [hs, hf, hk, eraseP_key_cons]
    have hrests : g'.RestsOn rest := (linked_cons.1 h.tail.linked).1.congr hr.caller
    have hid : g'.id ∉ rest.map Frame.id := hr.id ▸ h.tail.id_notMem
    have hle : g'.id ≤ m.lastFrame := hr.id ▸ h.tail.ids_le g (by simp)
    exact h.tail.tail.cons hrests hid hle (by omega) (by omega) (by omega)

/-- A machine with nothing scheduled satisfies the invariant. -/
theorem disciplined_new (classes : ClassTable) (heap : Heap) (maxSteps : Nat) :
    (Machine.new classes heap maxSteps).Disciplined :=
  .nil _ _

/-- The invariant holds after any number of operations, in any order. -/
theorem Disciplined.operateAll {m : Machine} (h : m.Disciplined) (ops : List (Operation σ)) :
    (m.operateAll kb ops).Disciplined :=
  operateAll_preserves (fun _ => True)
    (fun m op hm _ => hm.of_moves (moves_operate m op)) h fun _ _ => trivial

/-! ### A frame keeps its place -/

/-- Every frame of `m'` that is not younger than `m` replaces a frame of `m` with exactly the
    same frames beneath it. -/
structure Descends (m m' : Machine) : Prop where
  lastFrame_le : m.lastFrame ≤ m'.lastFrame
  place : ∀ above f' below, m'.stack = above ++ f' :: below → f'.id ≤ m.lastFrame →
    ∃ above₀ f, m.stack = above₀ ++ f :: below ∧ f'.Replaces f

theorem Descends.refl (m : Machine) : m.Descends m where
  lastFrame_le := Nat.le_refl _
  place above f' _ h _ := ⟨above, f', h, rfl, rfl, rfl⟩

theorem Descends.trans {m₁ m₂ m₃ : Machine} (h₁ : m₁.Descends m₂) (h₂ : m₂.Descends m₃) :
    m₁.Descends m₃ where
  lastFrame_le := Nat.le_trans h₁.lastFrame_le h₂.lastFrame_le
  place above f below h hid := by
    obtain ⟨above₂, g, hg, hr⟩ := h₂.place above f below h (Nat.le_trans hid h₁.lastFrame_le)
    obtain ⟨above₁, k, hk, hr'⟩ := h₁.place above₂ g below hg (hr.id ▸ hid)
    exact ⟨above₁, k, hk, hr.id.trans hr'.id, hr.owner.trans hr'.owner,
      hr.caller.trans hr'.caller⟩

/-- A frame of a non-empty stack is the top one or a frame beneath it. -/
theorem cons_eq_split {x f : Frame} {xs above below : List Frame}
    (h : x :: xs = above ++ f :: below) :
    (x = f ∧ xs = below) ∨ ∃ above', xs = above' ++ f :: below := by
  rcases List.cons_eq_append_iff.1 h with ⟨rfl, h⟩ | ⟨above', rfl, h⟩
  · obtain ⟨rfl, rfl⟩ := List.cons.inj h
    exact .inl ⟨rfl, rfl⟩
  · exact .inr ⟨above', (List.cons.inj h).2⟩

/-- Every move of the stack leaves older frames in their places. -/
theorem Descends.of_moves {m m' : Machine} (h : m.Disciplined) (hmoves : m.Moves m') :
    m.Descends m' := by
  unfold Machine.Disciplined at h
  cases hmoves with
  | keep hs hf hk =>
    refine ⟨Nat.le_of_eq hf.symm, fun above f' below heq _ => ?_⟩
    exact ⟨above, f', hs ▸ heq, rfl, rfl, rfl⟩
  | clear hs hf =>
    refine ⟨Nat.le_of_eq hf.symm, fun above f' below heq _ => ?_⟩
    rw [hs] at heq
    simp at heq
  | push hs hid hkey hc hf hk =>
    refine ⟨by omega, fun above f' below heq hle => ?_⟩
    rw [hs] at heq
    rcases cons_eq_split heq with ⟨rfl, -⟩ | ⟨above', heq⟩
    · -- the new frame is younger than `m`
      omega
    · exact ⟨above', f', heq, rfl, rfl, rfl⟩
  | @drop f _ hm hs hf hk =>
    refine ⟨Nat.le_of_eq hf.symm, fun above f' below' heq _ => ?_⟩
    exact ⟨f :: above, f', by rw [hm, ← hs, heq]; rfl, rfl, rfl, rfl⟩
  | @rewrite f f₁ _ hm hs hr hkey hf hk =>
    refine ⟨Nat.le_of_eq hf.symm, fun above f' below' heq _ => ?_⟩
    rw [hs] at heq
    rcases cons_eq_split heq with ⟨rfl, rfl⟩ | ⟨above', heq⟩
    · exact ⟨[], f, hm, hr⟩
    · exact ⟨f :: above', f', by rw [hm, heq]; rfl, rfl, rfl, rfl⟩
  | @call f g callee below hm hs hr hw hkey hc hcid hckey hf hk =>
    refine ⟨by omega, fun above f' below' heq hle => ?_⟩
    rw [hs] at heq
    rcases cons_eq_split heq with ⟨rfl, -⟩ | ⟨above', heq⟩
    · omega
    · -- the waiting frame is in the place of the one that made the call
      rcases cons_eq_split heq with ⟨rfl, rfl⟩ | ⟨above'', heq⟩
      · exact ⟨[], f, hm, hr⟩
      · exact ⟨f :: above'', f', by rw [hm, heq]; rfl, rfl, rfl, rfl⟩
  | @release f g below hm hg hs hf hk =>
    rw [hm] at h
    obtain ⟨rest, rfl, -, -⟩ := h.below_of_callerIn hg
    rw [eraseP_key_cons] at hs
    refine ⟨Nat.le_of_eq hf.symm, fun above f' below' heq _ => ?_⟩
    exact ⟨f :: g :: above, f', by rw [hm, ← hs, heq]; rfl, rfl, rfl, rfl⟩
  | @resume f g g' below hm hg hs hr hl hkey hf hk =>
    rw [hm] at h
    obtain ⟨rest, rfl, -, -⟩ := h.below_of_callerIn hg
    rw [eraseP_key_cons] at hs
    refine ⟨Nat.le_of_eq hf.symm, fun above f' below' heq _ => ?_⟩
    rw [hs] at heq
    rcases cons_eq_split heq with ⟨rfl, rfl⟩ | ⟨above', heq⟩
    · exact ⟨[f], g, hm, hr⟩
    · exact ⟨f :: g :: above', f', by rw [hm, heq]; rfl, rfl, rfl, rfl⟩

/-- A frame keeps its place through any number of operations. -/
theorem Descends.operateAll {m : Machine} (h : m.Disciplined) (ops : List (Operation σ)) :
    m.Descends (m.operateAll kb ops) := by
  induction ops generalizing m with
  | nil => exact .refl m
  | cons op ops ih =>
    have hmoves : m.Moves (m.operate kb op) := moves_operate m op
    exact (Descends.of_moves h hmoves).trans (ih (h.of_moves hmoves))

end Machine

/-! ### Faults that blame a caller -/

/-- The faults a return reports when its caller is not there or is not waiting. -/
def Fault.blamesCaller : Fault → Bool
  | .callerNotWaiting _ _ | .callerNotScheduled _ => true
  | _ => false

theorem EvalFault.not_blamesCaller {sc : Scope} {e : Expr} {fault : Fault}
    (h : EvalFault sc e fault) : fault.blamesCaller = false := by
  cases h <;> rfl

theorem Machine.AskFault.not_blamesCaller {fault : Fault} (h : AskFault fault) :
    fault.blamesCaller = false := by
  cases h <;> rfl

/-- A frame that rests on the frames beneath it never blames its caller. -/
theorem Frame.RestsOn.not_blamesCaller {f : Frame} {below : List Frame} (h : f.RestsOn below)
    {classes : ClassTable} {sc : Scope} {s : Stmt} {fault : Fault}
    (hr : s.Refuses classes sc (f.callerIn below) fault) : fault.blamesCaller = false := by
  cases hr
  case eval hmem he => exact (Expr.evalFault_of_eval he).not_blamesCaller
  case callerMissing id hc =>
    rcases h.callerIn with hnone | ⟨g, rest, -, -, -, hg⟩
    · rw [hnone] at hc
      exact absurd hc (by simp)
    · rw [hg] at hc
      exact absurd hc (by simp)
  case callerBusy e g hc hbusy =>
    rcases h.callerIn with hnone | ⟨g', rest, -, -, hw, hg⟩
    · rw [hnone] at hc
      exact absurd hc (by simp)
    · obtain rfl : g' = g := by simpa [hg] using hc
      obtain ⟨target, rest, hawait⟩ := hw.awaiting
      rw [hawait] at hbusy
      exact absurd hbusy (by simp)
  all_goals rfl

namespace Machine

variable {σ : Type} {kb : Option (KnowledgeBase σ)}

/-- No step of a disciplined machine blames a caller. -/
theorem Disciplined.not_blamesCaller {m : Machine} (h : m.Disciplined) {s : σ} {id : Nat}
    {cause : Fault} (hstep : (m.step kb s).outcome = .failed (.frame id cause)) :
    cause.blamesCaller = false := by
  obtain ⟨f, below, s', hm, -, he⟩ := effectOf_of_failed hstep
  rw [Machine.Disciplined, hm] at h
  rcases effectOf_eq_error he with ⟨-, rfl⟩ | hrefuses | hask
  · rfl
  · exact (linked_cons.1 h.linked).1.not_blamesCaller hrefuses
  · exact hask.not_blamesCaller

/-! ### Calls and returns -/

/-- The machine after the value `v` was returned to the frame `g`. That frame lay on the frames
    `beneath` and waited to store a result in `target` and then to run `left`. -/
inductive Returned (g : Frame) (target : Option Location) (left : Option Stmt) (v : Value)
    (beneath : List Frame) (m' : Machine) : Prop where
  /-- It wanted no result and has nothing left to run, so it has left the stack, too. -/
  | done (ht : target = none) (hl : left = none) (hs : m'.stack = beneath)
      (hretired : m'.retired.head? = some (g.id, g.locals))
  /-- It goes on in its place, under its id, owner and caller and with its variables. -/
  | resumed {g' : Frame} (hs : m'.stack = g' :: beneath) (hr : g'.Replaces g)
      (hl : g'.locals = g.locals) (hnext : Stmt.received target left v = some g'.stmt)

/-- A suspended statement is over only if no result was wanted and nothing came after the call. -/
theorem eq_none_of_received {target : Option Location} {left : Option Stmt} {v : Value}
    (h : Stmt.received target left v = none) : target = none ∧ left = none := by
  cases target with
  | none => exact ⟨rfl, h⟩
  | some l => cases left <;> exact absurd h (by simp [Stmt.received])

/-- A return goes back to the frame right beneath. -/
theorem Disciplined.returned {m : Machine} (h : m.Disciplined) {f : Frame} {below : List Frame}
    {e : Expr} {s : σ} (hm : m.stack = f :: below) (hhead : f.stmt.head = .ret e)
    (hran : (m.step kb s).outcome = .ran) :
    ∃ g beneath target left v, below = g :: beneath ∧ f.caller = some g.ref ∧
      g.stmt.awaiting? = some (target, left) ∧ e.eval (m.scopeOf f) = .ok v ∧
      Returned g target left v beneath (m.step kb s).machine := by
  rw [Machine.Disciplined, hm] at h
  obtain ⟨eff, hw, hstep⟩ := wants_of_ran hm hhead nofun hran
  cases hw with
  | @ret _ v g target left hg hawait hv =>
    obtain ⟨beneath, rfl, hc, -⟩ := h.below_of_callerIn hg
    refine ⟨g, beneath, target, left, v, rfl, hc, hawait, hv, ?_⟩
    rw [hstep]
    have hstack : ((m.running (g :: beneath)).retire f |>.unschedule g.key).stack = beneath :=
      eraseP_key_cons g beneath
    -- what the caller has left decides whether it is scheduled again
    cases hr : Stmt.received target left v with
    | none =>
      obtain ⟨ht, hl⟩ := eq_none_of_received hr
      exact .done ht hl hstack rfl
    | some next =>
      exact .resumed (congrArg (_ :: ·) hstack) ⟨rfl, rfl, rfl⟩ rfl hr

/-- Within the step limit a return runs exactly if it is inside a call and its value can be
    evaluated. -/
theorem Disciplined.ret_ran_iff {m : Machine} (h : m.Disciplined) {f : Frame}
    {below : List Frame} {e : Expr} (hm : m.stack = f :: below) (hhead : f.stmt.head = .ret e)
    (s : σ) :
    (m.step kb s).outcome = .ran ↔
      m.limitReached = false ∧ f.caller ≠ none ∧ ∃ v, e.eval (m.scopeOf f) = .ok v := by
  constructor
  · intro hran
    obtain ⟨hlimit, -⟩ := enacts_of_ran hm hran
    obtain ⟨g, beneath, target, left, v, -, hc, -, hv, -⟩ := h.returned hm hhead hran
    exact ⟨hlimit, by simp [hc], v, hv⟩
  · rintro ⟨hlimit, hc, v, hv⟩
    rw [Machine.Disciplined, hm] at h
    obtain ⟨g, beneath, rfl, hcaller, hwaits⟩ := (linked_cons.1 h.linked).1.resolve_left hc
    obtain ⟨target, left, hawait⟩ := hwaits.awaiting
    have hw : f.stmt.head.Wants m.classes (m.scopeOf f) (f.callerIn (g :: beneath))
        (.act (.resume g (Stmt.received target left v))) :=
      hhead ▸ .ret (Frame.callerIn_cons hcaller beneath) hawait hv
    rw [step_eq hm hlimit, effectOf_of_wants (Expr.contains_of_eval hv) hw]
    rfl

/-- The machine after the frame `f` on top of `below` called `method` of the object `r`: the frame
    `body` of the method is on top, and `f` waits right beneath it as `g`. -/
structure Called (f : Frame) (below : List Frame) (target : Option Location) (r : Ref)
    (method : Method) (body g : Frame) (m' : Machine) : Prop where
  stack : m'.stack = body :: g :: below
  owner : body.owner = .object r
  runs : body.stmt = method.body
  caller : body.caller = some g.ref
  replaces : g.Replaces f
  locals : g.locals = f.locals
  /-- It wants the result where the call does, and has left what came after the call. -/
  awaiting : g.stmt.awaiting? = some (target, f.stmt.tail?)

/-- A call starts the method and leaves the frame that made it waiting. -/
theorem called_of_ran {m : Machine} {f : Frame} {below : List Frame} {s : σ}
    {target : Option Location} {callee : Expr} {name : String} {args : List Expr}
    (hm : m.stack = f :: below) (hhead : f.stmt.head = .call target callee name args)
    (hran : (m.step kb s).outcome = .ran) :
    ∃ r method body g, callee.eval (m.scopeOf f) = .ok (.object r) ∧
      m.classes.method r.cls name = .ok method ∧
      Called f below target r method body g (m.step kb s).machine := by
  obtain ⟨eff, hw, hstep⟩ := wants_of_ran hm hhead nofun hran
  cases hw with
  | @call _ _ _ _ r method vs hcallee hr hmethod hlen hargs =>
    let g : Frame := { f with
      key := m.lastKey + 1
      stmt := (Stmt.storeReturn target).andThen f.stmt.tail? }
    let locals : Memory := .ofList (("this", .object r) :: method.params.zip vs)
    let body : Frame :=
      ⟨m.lastFrame + 1, m.lastKey + 2, method.body, locals, .object r, some g.ref⟩
    refine ⟨r, method, body, g, hcallee, hmethod, ?_⟩
    rw [hstep]
    exact ⟨rfl, rfl, rfl, rfl, ⟨rfl, rfl, rfl⟩, rfl, awaiting_andThen target f.stmt.tail?⟩

/-- However a machine goes on after a call, a frame with the id of the method still has the
    waiting caller, unchanged, right beneath it. -/
theorem Disciplined.below_of_id {m : Machine} (h : m.Disciplined) {body : Frame}
    {below : List Frame} (hm : m.stack = body :: below) (ops : List (Operation σ))
    {below' : List Frame} {f' : Frame} (hm' : (m.operateAll kb ops).stack = f' :: below')
    (hid : f'.id = body.id) : below' = below := by
  -- the frame replaces one of the machine before, which can only be the top one
  have hdesc : m.Descends (m.operateAll kb ops) := Descends.operateAll h ops
  rw [Machine.Disciplined, hm] at h
  have hle : f'.id ≤ m.lastFrame := hid ▸ h.ids_le body (by simp)
  obtain ⟨above₀, f₀, hplace, hr⟩ := hdesc.place [] f' below' hm' hle
  rw [hm] at hplace
  rcases cons_eq_split hplace with ⟨-, hb⟩ | ⟨above', hb⟩
  · exact hb.symm
  · -- a second frame with the id of the method would be beneath it
    refine absurd ?_ h.id_notMem
    rw [hb, ← hid, hr.id]
    simp

end Machine

/-- Calls and returns match in every state that operations in any order lead to.

    * Each frame has no caller or its caller is the very frame beneath it, which waits; ids are
      distinct and have been handed out.
    * No step blames a caller.
    * Within the step limit a return runs exactly if it is inside a call and its value can be
      evaluated. It goes back to the frame beneath, which stores the value where it wanted it and
      goes on with what it has left, under its id, owner and caller and with its variables; only if
      there is nothing of either is that frame done.
    * That is the frame that made the call, as it was at that moment, whatever was done in
      between. -/
theorem call_return_discipline {σ : Type} (kb : Option (KnowledgeBase σ)) (classes : ClassTable)
    (heap : Heap) (maxSteps : Nat) (ops : List (Operation σ)) :
    let m := (Machine.new classes heap maxSteps).operateAll kb ops
    m.Disciplined ∧
      (∀ s id cause, (m.step kb s).outcome = .failed (.frame id cause) →
        cause.blamesCaller = false) ∧
      (∀ s f below e, m.stack = f :: below → f.stmt.head = .ret e →
        ((m.step kb s).outcome = .ran ↔
          m.limitReached = false ∧ f.caller ≠ none ∧ ∃ v, e.eval (m.scopeOf f) = .ok v) ∧
        ((m.step kb s).outcome = .ran →
          ∃ g beneath target left v, below = g :: beneath ∧ f.caller = some g.ref ∧
            g.stmt.awaiting? = some (target, left) ∧ e.eval (m.scopeOf f) = .ok v ∧
            Machine.Returned g target left v beneath (m.step kb s).machine)) ∧
      (∀ s f below target callee name args, m.stack = f :: below →
        f.stmt.head = .call target callee name args → (m.step kb s).outcome = .ran →
        ∃ r method body g, callee.eval (m.scopeOf f) = .ok (.object r) ∧
          m.classes.method r.cls name = .ok method ∧
          Machine.Called f below target r method body g (m.step kb s).machine ∧
          ∀ later s' f' below' e,
            let m' := (m.step kb s).machine.operateAll kb later
            m'.stack = f' :: below' → f'.id = body.id → f'.stmt.head = .ret e →
            (m'.step kb s').outcome = .ran →
            ∃ v, e.eval (m'.scopeOf f') = .ok v ∧
              Machine.Returned g target f.stmt.tail? v below (m'.step kb s').machine) := by
  intro m
  have hm : m.Disciplined := (Machine.disciplined_new classes heap maxSteps).operateAll ops
  refine ⟨hm, ?_, ?_, ?_⟩
  · intro s id cause h
    exact hm.not_blamesCaller h
  · intro s f below e hstack hhead
    exact ⟨hm.ret_ran_iff hstack hhead s, hm.returned hstack hhead⟩
  · intro s f below target callee name args hstack hhead hran
    obtain ⟨r, method, body, g, hcallee, hmethod, hcalled⟩ :=
      Machine.called_of_ran hstack hhead hran
    refine ⟨r, method, body, g, hcallee, hmethod, hcalled, ?_⟩
    intro later s' f' below' e m' hstack' hid hhead' hran'
    -- the frame of the method still has the caller beneath it when it returns
    have hcall : (m.step kb s).machine.Disciplined := hm.of_moves (Machine.moves_step m s)
    have hm' : m'.Disciplined := hcall.operateAll later
    have hb : below' = g :: below := hcall.below_of_id hcalled.stack later hstack' hid
    obtain ⟨g', beneath, target', left, v, hbelow, -, hawait, hv, hreturned⟩ :=
      hm'.returned hstack' hhead' hran'
    obtain ⟨rfl, rfl⟩ := List.cons.inj (hb.symm.trans hbelow)
    -- and it still waits for what the call wanted
    obtain ⟨rfl, rfl⟩ : target = target' ∧ f.stmt.tail? = left := by
      simpa [hcalled.awaiting] using hawait
    exact ⟨v, hv, hreturned⟩

/-- Above the frame of another program, a program prints what a method returns, which is 7. The
    program goes on with the assignment of 7, and the other frame is still beneath it. -/
theorem call_return_discipline_of_printed_result :
    let classes : ClassTable := .ofList [("C", ⟨[], .ofList [("m", ⟨["p"], .ret (.var "p")⟩)]⟩)]
    let obj : Value := .object ⟨"obj1", "C"⟩
    let rest : Stmt := .print (.var "x")
    let main : Stmt :=
      .seq (.call (some (.var "x")) (.lit obj) "m" [.lit (.integer "7")]) rest
    let kb : Option (KnowledgeBase Unit) := none
    let m : Machine := (Machine.new classes (Heap.create ∅ "C" ∅).2 0).operateAll kb
      [.start .breakpoint, .start main]
    let called : Machine := (m.step kb ()).machine
    ∃ caller other body g, m.stack = [caller, other] ∧ called.stack = [body, g, other] ∧
      g.Replaces caller ∧ (called.step kb ()).outcome = .ran ∧
      Machine.Returned g (some (.var "x")) (some rest) (.integer "7") [other]
        (called.step kb ()).machine := by
  intro classes obj rest main kb m called
  obtain ⟨-, -, -, hcall⟩ := call_return_discipline kb classes (Heap.create ∅ "C" ∅).2 0
    [.start .breakpoint, .start main]
  have hmachine : (Machine.new classes (Heap.create ∅ "C" ∅).2 0).operateAll kb
    [.start .breakpoint, .start main] = m := rfl
  rw [hmachine] at hcall
  have hran : (m.step kb ()).outcome = .ran := Outcome.goesOn_iff.1 (by decide)
  have hreturns : (called.step kb ()).outcome = .ran := Outcome.goesOn_iff.1 (by decide)
  obtain ⟨caller, other, hm, hcaller, hclasses⟩ : ∃ caller other,
      m.stack = [caller, other] ∧ caller.stmt = main ∧ m.classes = classes := by
    simp only [m, Machine.operateAll, List.foldl, Machine.operate, Machine.start_eq]
    exact ⟨_, _, rfl, rfl, rfl⟩
  have hvalue : (called.evalTop (.var "p")).map Except.toOption = some (some (.integer "7")) := by
    decide
  -- what the machine does is known now, so it need not be run again
  clear_value m
  obtain ⟨r, method, body, g, hcallee, hmethod, hcalled, hlater⟩ :=
    hcall () caller [other] (some (.var "x")) (.lit obj) "m" _ hm (by rw [hcaller]; rfl) hran
  -- the callee is a literal, so the method is known
  obtain rfl : ⟨"obj1", "C"⟩ = r := Value.object.inj (Expr.eq_of_eval_lit hcallee)
  obtain rfl : ⟨["p"], .ret (.var "p")⟩ = method := by
    have hfound : m.classes.method "C" "m" = .ok ⟨["p"], .ret (.var "p")⟩ := by
      simp only [hclasses, classes, ClassTable.method, SortedMap.ofList, List.foldl,
        SortedMap.get?_insert_self]
    exact Except.ok.inj (hfound.symm.trans hmethod)
  have hstack : called.stack = [body, g, other] := hcalled.stack
  obtain ⟨v, (hv : (Expr.var "p").eval (called.scopeOf body) = .ok v), hreturned⟩ :=
    hlater [] () body _ (.var "p") hstack rfl (by rw [hcalled.runs]; rfl) hreturns
  rw [Machine.evalTop_of_stack hstack, hv] at hvalue
  obtain rfl : v = .integer "7" := Option.some.inj (Option.some.inj hvalue)
  rw [hcaller] at hreturned
  exact ⟨caller, other, body, g, hm, hstack, hcalled.replaces, hreturns, hreturned⟩

end ObjectMachine
