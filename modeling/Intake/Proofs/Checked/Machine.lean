import Intake.Proofs.Checked.Token
import Intake.Proofs.Record.Keeps

/-!
# Machines

A machine is a scanner by position: it reads an input from a position, works on a state, and may trap.
`Follows` says that it does what a scanner does wherever an invariant of the state holds, and that the
scanner keeps the invariant. It is closed under the combinators that scanners are made of, so what is
left to be shown of a whole machine are the places where it runs an operation of its own.

Scanners carry a proof that they move forward, machines do not. A list whose items would not be
read is noticed by the loop that reads them.
-/

namespace Intake.Checked

open Record (Reply Scan Read Forward)

/-- How a machine stopped: with a value at a position, or with a reason to give up. -/
inductive Outcome (σ α : Type) where
  | ok (value : α) (state : σ) (pos : Nat)
  | stop (why : Record.Stop) (state : σ)

/-- The reply of a scanner, by position. -/
def outcome {σ α : Type} : Reply σ α → Outcome σ α
  | .ok a s d => .ok a s d.pos
  | .stop why s => .stop why s

def Machine (σ α : Type) := σ → Nat → Checked (Outcome σ α)

namespace Machine

variable {σ τ α β : Type}

def pure (a : α) : Machine σ α := fun s p => return .ok a s p

def bind (m : Machine σ α) (f : α → Machine σ β) : Machine σ β := fun s p => do
  match ← m s p with
  | .ok a s q => f a s q
  | .stop why s => return .stop why s

instance : Monad (Machine σ) where
  pure := pure
  bind := bind

def get : Machine σ σ := fun s p => return .ok s s p

def modify (f : σ → σ) : Machine σ Unit := fun s p => return .ok () (f s) p

/-- Changes the state by an operation that may trap. -/
def update (f : σ → Checked σ) : Machine σ Unit := fun s p => return .ok () (← f s) p

def position : Machine σ Nat := fun s p => return .ok p s p

def fail (fault : Record.Fault) : Machine σ α := fun s _ => return .stop (.fault fault) s

/-- A reader that leaves the state alone. -/
def read (code : Nat → Checked (Found α)) : Machine σ α := fun s p => do
  match ← code p with
  | .ok (a, q) => return .ok a s q
  | .error why => return .stop why s

/-- Runs a machine on a state of its own, which is lost when the machine gives up. -/
def withState (init : τ) (m : Machine τ α) : Machine σ (α × τ) := fun s p => do
  match ← m init p with
  | .ok a t q => return .ok (a, t) s q
  | .stop why _ => return .stop why s

section List

variable (input : Bytes) (close : UInt8) (item : Machine σ Unit)

def skipSpace : Machine σ Unit := fun s p => return .ok () s (Checked.skipSpace input p)

/-- Reads an item, and one more after each comma, up to the byte `close`. -/
def items (s : σ) (p : Nat) : Checked (Outcome σ Unit) :=
  match item s p with
  | .error trap => .error trap
  | .ok (.stop why s) => .ok (.stop why s)
  | .ok (.ok _ s q) =>
    let q := Checked.skipSpace input q
    match input[q]? with
    | none => .ok (.stop (.incomplete 1) s)
    | some b =>
      if b = Byte.comma then
        if input.length - (q + 1) < input.length - p then items s (q + 1) else .error .loop
      else if b = close then .ok (.ok () s (q + 1))
      else .ok (.stop (.fault (.unexpectedByte b q)) s)
termination_by input.length - p

/-- The items of a list that ends with `close`. -/
def list : Machine σ Unit := fun s p =>
  let p := Checked.skipSpace input p
  match input[p]? with
  | none => .ok (.stop (.incomplete 1) s)
  | some b => if b = close then .ok (.ok () s (p + 1)) else items input close item s p

end List

def elements (input : Bytes) (element : Machine σ Unit) : Machine σ Unit := do
  read (expect Byte.openSquare input)
  list input Byte.closeSquare element

/-- The members of an object. Each key is handed to `member`, which reads the value. -/
def members (input : Bytes) (member : Bytes → Machine σ Unit) : Machine σ Unit := do
  read (expect Byte.openBrace input)
  list input Byte.closeBrace do
    let key ← read (rawString input)
    read (expect Byte.colon input)
    member key

end Machine

/-! ### Following a scanner -/

/-- Where the invariant holds the machine does what the scanner does, and the scanner keeps it. -/
structure Follows {σ α : Type} (input : Bytes) (I : σ → Prop) (m : Machine σ α) (x : Scan σ α) :
    Prop where
  code : ∀ s p, p ≤ input.length → I s → m s p = .ok (outcome (x.run s (.within input p)))
  keeps : Scan.Keeps I x

section Follows

variable {σ τ α β : Type} {input : Bytes} {I : σ → Prop}

section Run

variable {m : Machine σ α} {x : Scan σ α} {s s' : σ} {p : Nat}
variable (h : Follows input I m x) (hp : p ≤ input.length) (hs : I s)
include h hp hs

theorem Follows.stop {why : Record.Stop} (hrun : x.run s (.within input p) = .stop why s') :
    m s p = .ok (.stop why s') := by
  rw [h.code s p hp hs, hrun]
  rfl

theorem Follows.ok {a : α} {d : Cursor} (hrun : x.run s (.within input p) = .ok a s' d) :
    m s p = .ok (.ok a s' d.pos) ∧ I s' ∧ d = .within input d.pos ∧ d.pos ≤ input.length := by
  have hkeep := h.keeps s (.within input p) hs
  have hreach := x.reaches hrun
  rw [hrun] at hkeep
  refine ⟨?_, hkeep, Cursor.within_of_reaches hreach, Cursor.pos_le_of_reaches hp hreach⟩
  rw [h.code s p hp hs, hrun]
  rfl

end Run

theorem follows_bind {m : Machine σ α} {x : Scan σ α} {f : α → Machine σ β} {g : α → Scan σ β}
    (hx : Follows input I m x) (hf : ∀ a, Follows input I (f a) (g a)) :
    Follows input I (m >>= f) (x >>= g) where
  code s p hp hs := by
    change Machine.bind m f s p = _
    rw [Machine.bind, Scan.run_bind]
    cases hrun : x.run s (.within input p) with
    | stop why s' =>
        rw [hx.stop hp hs hrun]
        rfl
    | ok a s' d =>
        obtain ⟨hcode, hs', hd, hle⟩ := hx.ok hp hs hrun
        rw [hcode, ok_bind]
        dsimp only
        rw [(hf a).code s' d.pos hle hs', ← hd]
  keeps := Scan.keeps_bind hx.keeps fun a => (hf a).keeps

theorem follows_modify {f : σ → σ} (hf : ∀ s, I s → I (f s)) :
    Follows input I (Machine.modify f) (Scan.modify f) where
  code _ _ _ _ := rfl
  keeps := Scan.keeps_modify hf

/-- After a change of the state more may hold of it, for as long as the machine goes on. -/
theorem follows_modify_bind {J : σ → Prop} {f : σ → σ} {m : Machine σ α} {x : Scan σ α}
    (hf : ∀ s, I s → J (f s)) (hx : Follows input J m x) (hJ : ∀ s, J s → I s) :
    Follows input I (Machine.modify f >>= fun _ => m) (Scan.modify f >>= fun _ => x) where
  code s p hp hs := hx.code (f s) p hp (hf s hs)
  keeps s c hs := hJ _ (hx.keeps (f s) c (hf s hs))

theorem follows_position : Follows input I Machine.position Scan.position where
  code _ _ _ _ := rfl
  keeps := Scan.keeps_position

theorem follows_fail (fault : Record.Fault) :
    Follows input I (Machine.fail fault : Machine σ α) (Scan.fail fault) where
  code _ _ _ _ := rfl
  keeps := Scan.keeps_fail fault

theorem follows_skipSpace : Follows input I (Machine.skipSpace input) Scan.skipSpace where
  code s p _ _ := by
    show _ = Except.ok (outcome (.ok () s (Cursor.within input p).skipSpace))
    rw [skipSpace_within]
    rfl
  keeps := Scan.keeps_skipSpace

theorem follows_read {code : Nat → Checked (Found α)} {f : Cursor → Read α} (h : Runs input code f)
    (hf : Forward f) : Follows input I (Machine.read code) (Scan.read f hf) where
  code s p hp _ := by
    rw [Machine.read, h p hp, ok_bind, Scan.run_read]
    cases f (.within input p) <;> rfl
  keeps := Scan.keeps_read

theorem follows_expect (b : UInt8) :
    Follows input I (Machine.read (expect b input)) (Scan.expect b) :=
  follows_read (runs_expect b input) _

theorem follows_rawString : Follows input I (Machine.read (rawString input)) Scan.rawString :=
  follows_read (runs_rawString input) _

theorem follows_withState {J : τ → Prop} {init : τ} {m : Machine τ α} {x : Scan τ α} (hinit : J init)
    (hx : Follows input J m x) :
    Follows input I (Machine.withState init m) (Scan.withState init x) where
  code s p hp _ := by
    rw [Machine.withState, hx.code init p hp hinit, ok_bind, Scan.run_withState]
    cases x.run init (.within input p) <;> rfl
  keeps := Scan.keeps_withState

section List

variable {close : UInt8} {code : Machine σ Unit} {item : Scan σ Unit} (h : Follows input I code item)
include h

theorem Follows.behind {s s' : σ} {p : Nat} {u : Unit} {d : Cursor} (hp : p ≤ input.length) (hs : I s)
    (hrun : item.run s (.within input p) = .ok u s' d) :
    code s p = .ok (.ok u s' d.pos) ∧ I s' ∧ skipSpace input d.pos ≤ input.length ∧
      d.skipSpace = .within input (skipSpace input d.pos) ∧
      input[skipSpace input d.pos]? = d.skipSpace.rest.head? := by
  obtain ⟨hcode, hs', hd, hle⟩ := h.ok hp hs hrun
  have hspace : d.skipSpace = .within input (skipSpace input d.pos) := by rw [← skipSpace_within, ← hd]
  refine ⟨hcode, hs', skipSpace_le hle, hspace, ?_⟩
  rw [hspace, Cursor.getElem?_eq_head?]

/-- Each round reads an item and a comma, so the loop moves on. -/
theorem items_eq (s : σ) (p : Nat) (hp : p ≤ input.length) (hs : I s) :
    Machine.items input close code s p =
      .ok (outcome (Scan.runItems close item s (.within input p))) := by
  obtain ⟨c, hc⟩ : ∃ c, Cursor.within input p = c := ⟨_, rfl⟩
  rw [hc]
  fun_induction Scan.runItems close item s c generalizing p with
  | case1 s c why s' hrun =>
      subst hc
      rw [Machine.items, h.stop hp hs hrun]
      rfl
  | case2 s c u s' d hrun hrest =>
      subst hc
      obtain ⟨hcode, -, -, -, hbyte⟩ := h.behind hp hs hrun
      rw [hrest] at hbyte
      rw [Machine.items, hcode]
      dsimp only
      rw [hbyte]
      rfl
  | case3 s c u s' d hrun rest hrest hlt ih =>
      subst hc
      obtain ⟨hcode, hs', hle, hspace, hbyte⟩ := h.behind hp hs hrun
      rw [hspace, Cursor.advance_within] at hlt ih
      rw [hrest] at hbyte
      have hless : input.length - (skipSpace input d.pos + 1) < input.length - p := by
        simpa only [Cursor.rest_within, List.length_drop] using hlt
      have hlast := (List.getElem?_eq_some_iff.1 hbyte).1
      rw [Machine.items, hcode]
      dsimp only
      rw [hbyte]
      dsimp only [List.head?_cons]
      rw [if_pos rfl, if_pos hless, hspace, Cursor.advance_within]
      exact ih _ hlast hs' rfl
  | case4 s c u s' d hrun rest hrest hlt hne =>
      subst hc
      obtain ⟨hcode, -, -, hspace, hbyte⟩ := h.behind hp hs hrun
      rw [hrest] at hbyte
      rw [Machine.items, hcode]
      dsimp only
      rw [hbyte]
      dsimp only [List.head?_cons]
      rw [if_neg hne, if_pos rfl, hspace]
      rfl
  | case5 s c u s' d hrun b rest hrest hlt hcomma hclose =>
      subst hc
      obtain ⟨hcode, -, -, hspace, hbyte⟩ := h.behind hp hs hrun
      rw [hrest] at hbyte
      rw [Machine.items, hcode]
      dsimp only
      rw [hbyte]
      dsimp only [List.head?_cons]
      rw [if_neg hcomma, if_neg hclose, hspace]
      rfl

theorem follows_list : Follows input I (Machine.list input close code) (Scan.list close item) where
  code s p hp hs := by
    show _ = Except.ok (outcome (Scan.runList close item s (.within input p)))
    unfold Machine.list Scan.runList
    rw [skipSpace_within]
    dsimp only
    cases hbyte : input[skipSpace input p]? with
    | none =>
        rw [Cursor.rest_within_of_none hbyte]
        rfl
    | some b =>
        rw [Cursor.rest_within_of_getElem? hbyte]
        dsimp only
        split
        · rfl
        · exact items_eq h s _ (skipSpace_le hp) hs
  keeps := Scan.keeps_list h.keeps

theorem follows_elements : Follows input I (Machine.elements input code) (Scan.elements item) :=
  follows_bind (follows_expect _) fun _ => follows_list h

end List

theorem follows_members {code : Bytes → Machine σ Unit} {member : Bytes → Scan σ Unit}
    (h : ∀ key, Follows input I (code key) (member key)) :
    Follows input I (Machine.members input code) (Scan.members member) :=
  follows_bind (follows_expect _) fun _ => follows_list <|
    follows_bind follows_rawString fun key => follows_bind (follows_expect _) fun _ => h key

end Follows

end Intake.Checked
