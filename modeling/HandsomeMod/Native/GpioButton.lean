import HandsomeMod.ForStd.Run
import HandsomeMod.ForStd.Update

/-!
# Buttons on GPIO lines

Embeds `gpio-button-hotplug.c`: what `gpio_keys_button_probe` stores about a button,
`gpio_keys_handle_button`, and one round of `gpio_keys_polled_poll`. The allocation of an event
succeeds, and GPIO lines are given by what is read from them.
-/

namespace HandsomeMod.Native.GpioButton

def evKey : UInt32 := 1

def evSw : UInt32 := 5

/-- `struct bh_map` -/
structure BhMap where
  code : UInt32
  name : String
  deriving DecidableEq

def buttonMap : List BhMap :=
  [⟨0x100, "BTN_0"⟩, ⟨0x101, "BTN_1"⟩, ⟨0x102, "BTN_2"⟩, ⟨0x103, "BTN_3"⟩, ⟨0x104, "BTN_4"⟩,
    ⟨0x105, "BTN_5"⟩, ⟨0x106, "BTN_6"⟩, ⟨0x107, "BTN_7"⟩, ⟨0x108, "BTN_8"⟩, ⟨0x109, "BTN_9"⟩,
    ⟨244, "brightness_zero"⟩, ⟨171, "config"⟩, ⟨133, "copy"⟩, ⟨161, "eject"⟩, ⟨138, "help"⟩,
    ⟨0x21e, "lights_toggle"⟩, ⟨169, "phone"⟩, ⟨116, "power"⟩, ⟨356, "reboot"⟩, ⟨0x198, "reset"⟩,
    ⟨247, "rfkill"⟩, ⟨0x189, "video"⟩, ⟨114, "volume_down"⟩, ⟨115, "volume_up"⟩, ⟨246, "wwan"⟩,
    ⟨238, "wlan"⟩, ⟨0x211, "wps"⟩]

/-- The fields of `struct gpio_keys_button` that the driver reads, GPIO and interrupt apart. -/
structure Button where
  code : UInt32
  type : UInt32
  debounceInterval : UInt32
  wakeup : Bool

/-- The fields of `struct gpio_keys_button_data` that a run does not change. -/
structure ButtonCfg where
  b : Button
  mapEntry : Fin buttonMap.length
  threshold : Int

/-- The other fields of `struct gpio_keys_button_data`. -/
structure ButtonData where
  seen : UInt64
  lastState : Int
  count : Int

/-- `event->action` -/
inductive Action where
  | pressed
  | released
  deriving DecidableEq, Repr

/-- `struct bh_event` -/
structure Event where
  name : String
  type : UInt32
  seen : UInt64
  action : Action

/-- What `gpiod_get_value` and `jiffies` read. -/
structure Sample where
  value : Int
  jiffies : UInt64

/-! ### Probing -/

/-- `DIV_ROUND_UP` of unsigned numbers -/
def divRoundUp (n d : UInt32) : UInt32 := (n + d - 1) / d

def buttonGetIndex (code : UInt32) : Option (Fin buttonMap.length) :=
  buttonMap.findFinIdx? fun e => e.code = code

/-- The turn of `gpio_keys_button_probe` for one button; `none` is `-EINVAL`. -/
def buttonProbe (polled : Bool) (pollInterval : UInt32) (button : Button) :
    Option (ButtonCfg × ButtonData) :=
  if polled ∧ pollInterval = 0 then none
  else if button.wakeup then none
  else
    match buttonGetIndex button.code with
    | none => none
    | some mapEntry =>
      if button.type = 0 ∨ button.type = evKey ∨ button.type = evSw then
        let threshold :=
          if polled then (divRoundUp button.debounceInterval pollInterval).toInt32.toInt else 0
        -- Unknown state on boot
        some (⟨button, mapEntry, threshold⟩, ⟨0, -1, 0⟩)
      else none

/-! ### Samples -/

/-- `val = !!gpiod_get_value(bdata->gpiod)` -/
def buttonGetValue (value : Int) : Int := if value ≠ 0 then 1 else 0

def buttonHotplugCreateEvent (name : String) (type : UInt32) (seen : UInt64) (pressed : Int) :
    Event where
  name := name
  type := type
  seen := seen
  action := if pressed ≠ 0 then .pressed else .released

/-- `bdata->b->type ?: EV_KEY` -/
def Button.eventType (b : Button) : UInt32 := if b.type = 0 then evKey else b.type

def handleButton (hz : UInt64) (cfg : ButtonCfg) (bdata : ButtonData) (s : Sample) :
    ButtonData × Option Event :=
  let type := cfg.b.eventType
  let state := buttonGetValue s.value
  let seen := s.jiffies
  -- Don't advertise unpressed buttons on initialization
  if bdata.lastState = -1 ∧ type = evKey ∧ state = 0 then
    ({ bdata with lastState := state, count := 0 }, none)
  -- no change, so what was counted was a bounce
  else if bdata.lastState ≠ -1 ∧ bdata.lastState = state then
    ({ bdata with count := 0 }, none)
  -- a change that is not yet old enough
  else if bdata.count < cfg.threshold then
    ({ bdata with count := bdata.count + 1 }, none)
  else
    let before := if bdata.seen = 0 then seen else bdata.seen
    let name := buttonMap[cfg.mapEntry].name
    ({ seen := seen, lastState := state, count := 0 },
      some (buttonHotplugCreateEvent name type ((seen - before) / hz) state))

/-- The buttons of a device, and the events of each of them, newest first. -/
abbrev PolledDev := Nat → ButtonData × List Event

/-- One turn of the loop in `gpio_keys_polled_poll`. -/
def polledTurn (hz : UInt64) (cfg : Nat → ButtonCfg) (samples : Nat → Sample) (dev : PolledDev)
    (i : Nat) : PolledDev :=
  let (bdata, event) := handleButton hz (cfg i) (dev i).1 (samples i)
  Function.update dev i (bdata, event.toList ++ (dev i).2)

def polledPoll (hz : UInt64) (cfg : Nat → ButtonCfg) (nbuttons : Nat) (dev : PolledDev)
    (samples : Nat → Sample) : PolledDev :=
  (List.range nbuttons).foldl (polledTurn hz cfg samples) dev

end HandsomeMod.Native.GpioButton
