import Mathlib.Data.Finset.Card
import Rk3576.Lib.Run
import Rk3576.Gmac.Layout
import Rk3576.Ipc.Object

/-! The transmit path: `rt_serial_write` in polling mode, by any number of threads at once. There is
no lock: `dw8250_uart_putc` waits for an empty FIFO and writes, and others may do so in between. -/
namespace Rk3576.Uart
open Rk3576.Run Rk3576.Ipc
open Rk3576.Gmac (Byte)

/-- The calls of `putc` by `_serial_poll_tx`; `stream` is RT_DEVICE_FLAG_STREAM of the open. -/
def serialPollTx (stream : Bool) : List Byte → List Byte
  | [] => []
  | b :: data => (if b = 0x0a ∧ stream then [0x0d, b] else [b]) ++ serialPollTx stream data

/-- Where a thread is in `rt_serial_write`: before a read of LSR or before a write to UART_TX, with
the byte in hand and those after it. -/
inductive Writer where
  | idle
  | poll (ch : Byte) (rest : List Byte)
  | write (ch : Byte) (rest : List Byte)

/-- `fifo` and `wire` are the FIFO of the UART and what has left it, with the threads that wrote the
bytes; `lost` are bytes written to a full FIFO; `asked` lists, for each thread, the bytes of all its
calls. -/
structure TxPath where
  fifo : List (Tid × Byte)
  wire : List (Tid × Byte)
  lost : List (Tid × Byte)
  writer : Tid → Writer
  asked : Tid → List Byte

inductive TxPathAction where
  | call (t : Tid) (data : List Byte)
  | poll (t : Tid)
  | write (t : Tid)
  | shift

def Writer.next : List Byte → Writer
  | [] => .idle
  | ch :: rest => .poll ch rest

/-- `threads` bounds the threads that write, `depth` is the size of the FIFO. LSR.THRE is set
exactly while the FIFO is empty. -/
def txPathStep (stream : Bool) (threads depth : Nat) (w : TxPath) : TxPathAction → Option TxPath
  | .call t data =>
    match w.writer t with
    | .idle =>
      if t < threads then
        some { w with writer := Function.update w.writer t (Writer.next (serialPollTx stream data))
                      asked := Function.update w.asked t (w.asked t ++ serialPollTx stream data) }
      else none
    | .poll _ _ | .write _ _ => none
  | .poll t =>
    match w.writer t with
    | .poll ch rest =>
      some (if w.fifo = [] then
        { w with writer := Function.update w.writer t (.write ch rest) } else w)
    | .idle | .write _ _ => none
  | .write t =>
    match w.writer t with
    | .write ch rest =>
      let w := { w with writer := Function.update w.writer t (Writer.next rest) }
      some (if w.fifo.length < depth then { w with fifo := w.fifo ++ [(t, ch)] }
        else { w with lost := w.lost ++ [(t, ch)] })
    | .idle | .poll _ _ => none
  | .shift =>
    match w.fifo with
    | [] => none
    | b :: bs => some { w with fifo := bs, wire := w.wire ++ [b] }

def txPathInit : TxPath := ⟨[], [], [], fun _ => .idle, fun _ => []⟩

def Writer.rest : Writer → List Byte
  | .idle => []
  | .poll ch rest | .write ch rest => ch :: rest

def Writer.cleared : Writer → Bool
  | .idle | .poll _ _ => false
  | .write _ _ => true

def TxPath.took (w : TxPath) (t : Tid) : List Byte :=
  ((w.wire ++ w.fifo).filter (·.1 = t)).map (·.2)

def TxPath.clearedBelow (w : TxPath) (threads : Nat) : Finset Tid :=
  (Finset.range threads).filter fun t => (w.writer t).cleared = true

/-- With `threads` writers there are never more bytes in the FIFO and on their way to it. -/
structure TxPathInv (threads : Nat) (w : TxPath) : Prop where
  bound : w.fifo.length + (w.clearedBelow threads).card ≤ threads
  active : ∀ t, (w.writer t).rest ≠ [] → t < threads
  lost : w.lost = []
  stream : ∀ t, w.took t ++ (w.writer t).rest = w.asked t

@[simp] theorem Writer.next_rest (bs : List Byte) : (Writer.next bs).rest = bs := by
  cases bs <;> rfl

@[simp] theorem Writer.next_cleared (bs : List Byte) : (Writer.next bs).cleared = false := by
  cases bs <;> rfl

theorem TxPath.clearedBelow_le (w : TxPath) (threads : Nat) :
    (w.clearedBelow threads).card ≤ threads :=
  (Finset.card_filter_le _ _).trans (Finset.card_range threads).le

theorem clearedBelow_update {w w' : TxPath} {t : Tid} {x : Writer} (threads : Nat)
    (hx : x.cleared = false)
    (hw : w'.writer = Function.update w.writer t x) :
    w'.clearedBelow threads = (w.clearedBelow threads).erase t := by
  ext u
  rw [TxPath.clearedBelow, TxPath.clearedBelow, hw, Finset.mem_erase, Finset.mem_filter,
    Finset.mem_filter]
  by_cases hu : u = t
  · subst hu
    rw [Function.update_self, hx]
    simp
  · rw [Function.update_of_ne hu]
    exact ⟨fun h => ⟨hu, h⟩, fun h => h.2⟩

theorem stream_update {w w' : TxPath} {t : Tid} {x : Writer}
    (hw : w'.writer = Function.update w.writer t x)
    (htook : ∀ u, u ≠ t → w'.took u = w.took u) (hasked : ∀ u, u ≠ t → w'.asked u = w.asked u)
    (ht : w'.took t ++ x.rest = w'.asked t)
    (h : ∀ u, w.took u ++ (w.writer u).rest = w.asked u) (u : Tid) :
    w'.took u ++ (w'.writer u).rest = w'.asked u := by
  rw [hw]
  by_cases hu : u = t
  · subst hu
    rwa [Function.update_self]
  · rw [Function.update_of_ne hu, htook u hu, hasked u hu]
    exact h u

theorem active_update {threads : Nat} {writer : Tid → Writer} {t : Tid}
    {x : Writer} (ht : t < threads)
    (h : ∀ u, (writer u).rest ≠ [] → u < threads) (u : Tid)
    (hu : (Function.update writer t x u).rest ≠ []) : u < threads := by
  by_cases hut : u = t
  · rwa [hut]
  · rw [Function.update_of_ne hut] at hu
    exact h u hu

theorem took_push (w : TxPath) (t : Tid) (ch : Byte) (u : Tid) :
    ({ w with fifo := w.fifo ++ [(t, ch)] } : TxPath).took u = w.took u ++ if u = t then [ch]
      else [] := by
  rw [TxPath.took, TxPath.took]
  dsimp only
  rw [← List.append_assoc, List.filter_append, List.map_append]
  congr 1
  by_cases hu : u = t
  · subst hu
    simp
  · rw [if_neg hu]
    simp [Ne.symm hu]

theorem txPathStep_inv {stream : Bool} {threads depth : Nat} (hn : threads ≤ depth)
    (w : TxPath) (a : TxPathAction)
    (w' : TxPath) (h : TxPathInv threads w) (hs : txPathStep stream threads depth w a = some w') :
    TxPathInv threads w' := by
  cases a with
  | call t data =>
    rw [txPathStep] at hs
    cases hw : w.writer t with
    | idle =>
      rw [hw] at hs
      dsimp only at hs
      split at hs
      · next ht =>
        obtain rfl := Option.some.inj hs
        refine ⟨?_, active_update ht h.active, h.lost,
          stream_update rfl (fun _ _ => rfl) (fun u hu => ?_) ?_ h.stream⟩
        · rw [clearedBelow_update threads (Writer.next_cleared _) rfl]
          exact (Nat.add_le_add_left (Finset.card_erase_le) _).trans h.bound
        · exact Function.update_of_ne hu _ _
        · dsimp only
          have hold := h.stream t
          rw [hw] at hold
          rw [Function.update_self, Writer.next_rest, ← hold]
          simp only [Writer.rest, List.append_nil]
          rfl
      · cases hs
    | poll ch rest | write ch rest =>
      rw [hw] at hs
      cases hs
  | poll t =>
    rw [txPathStep] at hs
    cases hw : w.writer t with
    | poll ch rest =>
      rw [hw] at hs
      obtain rfl := Option.some.inj hs
      have ht : t < threads := h.active t (by rw [hw]; exact List.cons_ne_nil ch rest)
      split
      · next hempty =>
        refine ⟨?_, active_update ht h.active, h.lost,
          stream_update rfl (fun _ _ => rfl) (fun _ _ => rfl) ?_ h.stream⟩
        · rw [hempty, List.length_nil, Nat.zero_add]
          exact TxPath.clearedBelow_le _ threads
        · have hold := h.stream t
          rw [hw] at hold
          exact hold
      · exact h
    | idle | write ch rest =>
      rw [hw] at hs
      cases hs
  | write t =>
    rw [txPathStep] at hs
    cases hw : w.writer t with
    | write ch rest =>
      rw [hw] at hs
      have ht : t < threads := h.active t (by rw [hw]; exact List.cons_ne_nil ch rest)
      have hmem : t ∈ w.clearedBelow threads :=
        Finset.mem_filter.mpr ⟨Finset.mem_range.mpr ht, by rw [hw]; rfl⟩
      have hpos := Finset.card_pos.mpr ⟨t, hmem⟩
      have hbound := h.bound
      -- this thread's own place in the bound is the room for its byte
      have hroom : w.fifo.length < depth := by omega
      obtain rfl := Option.some.inj hs
      dsimp only
      rw [if_pos hroom]
      refine ⟨?_, active_update ht h.active, h.lost,
        stream_update rfl (fun u hu => ?_) (fun _ _ => rfl) ?_ h.stream⟩
      · rw [clearedBelow_update threads (Writer.next_cleared _) rfl, Finset.card_erase_of_mem hmem,
          List.length_append, List.length_singleton]
        omega
      · refine (took_push { w with
          writer := Function.update w.writer t (Writer.next rest) } t ch u).trans ?_
        rw [if_neg hu, List.append_nil]
        rfl
      · have hold := h.stream t
        rw [hw] at hold
        rw [took_push { w with writer := Function.update w.writer t (Writer.next rest) } t ch t,
          if_pos rfl, Writer.next_rest, List.append_assoc]
        exact hold
    | idle | poll ch rest =>
      rw [hw] at hs
      cases hs
  | shift =>
    rw [txPathStep] at hs
    cases hf : w.fifo with
    | nil =>
      rw [hf] at hs
      cases hs
    | cons b bs =>
      rw [hf] at hs
      obtain rfl := Option.some.inj hs
      have hbound := h.bound
      rw [hf, List.length_cons] at hbound
      refine ⟨?_, h.active, h.lost, fun t => ?_⟩
      · exact Nat.le_trans (Nat.add_le_add_right (Nat.le_succ _) _) hbound
      · have hold := h.stream t
        rw [TxPath.took, hf] at hold
        rw [TxPath.took]
        dsimp only
        rw [List.append_assoc]
        exact hold

theorem txPathInit_inv (threads : Nat) : TxPathInv threads txPathInit where
  bound := by
    rw [txPathInit, List.length_nil, Nat.zero_add]
    exact TxPath.clearedBelow_le _ threads
  active t ht := absurd rfl ht
  lost := rfl
  stream _ := rfl

/-- Any number of threads up to the depth of the FIFO write at once, without a lock: no byte meets a
full FIFO, and what the UART has taken from each thread, with what it still has in hand, is what its
calls asked for, in order and with the carriage returns of a stream. -/
theorem uart_transmit_stream (stream : Bool) {threads depth : Nat} (hn : threads ≤ depth)
    {as : List TxPathAction}
    {w : TxPath} (hr : runs (txPathStep stream threads depth) txPathInit as = some w) :
    w.lost = [] ∧ w.fifo.length ≤ threads ∧ ∀ t, w.took t ++ (w.writer t).rest = w.asked t := by
  have h := runs_invariant (txPathStep_inv hn) (txPathInit_inv threads) hr
  exact ⟨h.lost, Nat.le_trans (Nat.le_add_right _ _) h.bound, h.stream⟩

/-- Two threads see the FIFO empty before either writes; one of them sends a line end. -/
theorem uart_transmit_stream_pair :
    ∃ w, runs (txPathStep true 2 16) txPathInit
        [.call 0 [0x41], .call 1 [0x0a], .poll 0, .poll 1, .write 1, .write 0, .shift] = some w ∧
      w.fifo = [(0, 0x41)] ∧ w.took 1 ++ (w.writer 1).rest = [0x0d, 0x0a] ∧ w.lost = [] := by
  obtain ⟨w, hw, hfifo, hasked⟩ : ∃ w, runs (txPathStep true 2 16) txPathInit
      [.call 0 [0x41], .call 1 [0x0a], .poll 0, .poll 1, .write 1, .write 0, .shift] = some w ∧
      w.fifo = [(0, 0x41)] ∧ w.asked 1 = [0x0d, 0x0a] := ⟨_, rfl, rfl, rfl⟩
  obtain ⟨hlost, -, hstream⟩ := uart_transmit_stream true (by decide) hw
  exact ⟨w, hw, hfifo, (hstream 1).trans hasked, hlost⟩

end Rk3576.Uart
