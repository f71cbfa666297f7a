/-!
# Settings of the supervisor

The settings are fixed when the supervisor is made. Each that would make no sense at zero has a floor, which its setter
applies.
-/

namespace EncoderFleet

/-- How encoders are run. Times are in milliseconds. -/
structure Settings where
  /-- The encoder program. -/
  encoderPath : String := "ffmpeg"
  /-- How many sources may hold the capture device at once. -/
  captureCapacity : Nat := 1
  /-- How long a start waits for the capture device. -/
  lockTimeout : Nat := 5000
  /-- How long a stop waits for a killed encoder to end. -/
  stopTimeout : Nat := 5000
  /-- Whether a start first kills the encoders that an earlier run left behind. -/
  killOrphans : Bool := true
  /-- The directory below which each source has its HLS directory. -/
  hlsRoot : String := "hls"
  hlsSegmentSeconds : Nat := 1
  /-- How many segments an HLS playlist keeps. -/
  hlsListSize : Nat := 6
  /-- How many units a subscriber may fall behind. -/
  hubCapacity : Nat := 256
  /-- How much of an encoder's output is read at once, in bytes. -/
  readChunk : Nat := 65536

namespace Settings

def withCaptureCapacity (s : Settings) (n : Nat) : Settings := { s with captureCapacity := max n 1 }

def withHubCapacity (s : Settings) (n : Nat) : Settings := { s with hubCapacity := max n 1 }

def withHlsSegments (s : Settings) (seconds listSize : Nat) : Settings :=
  { s with hlsSegmentSeconds := max seconds 1, hlsListSize := listSize }

def withReadChunk (s : Settings) (n : Nat) : Settings := { s with readChunk := max n 1024 }

end Settings

end EncoderFleet
