import NucleoMotor.Direction
import NucleoMotor.Reversal
import NucleoMotor.Output
import NucleoMotor.Stopping
import NucleoMotor.Slew
import NucleoMotor.Monotone
import NucleoMotor.RatedSpeed
import NucleoMotor.TimeLedger
import NucleoMotor.ControlLaw
import NucleoMotor.Mirror
import NucleoMotor.Restart
import NucleoMotor.Windup
import NucleoMotor.PulseLedger
import NucleoMotor.Polling
import NucleoMotor.QuietEncoder
import NucleoMotor.Display
import NucleoMotor.Displayable
import NucleoMotor.DisplayChain
import NucleoMotor.Reading
import NucleoMotor.SpiRuns
import NucleoMotor.MotorLED
import NucleoMotor.TickerDeadlines
import NucleoMotor.Sampling
import NucleoMotor.EncoderPins
import NucleoMotor.NaN
import NucleoMotor.Pwm
