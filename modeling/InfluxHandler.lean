import InfluxHandler.Library.Numeral
import InfluxHandler.Library.Traced
import InfluxHandler.Library.KeyedMap
import InfluxHandler.Library.Replace
import InfluxHandler.Library.Lines
import InfluxHandler.Library.Escape
import InfluxHandler.Library.Sorting
import InfluxHandler.Library.Search
import InfluxHandler.Library.Gather
import InfluxHandler.Go.Basic
import InfluxHandler.Go.Strconv
import InfluxHandler.Go.Time
import InfluxHandler.Go.Float
import InfluxHandler.Go.Json
import InfluxHandler.Sensu.Event
import InfluxHandler.Sensu.Decode
import InfluxHandler.Sensu.Transform
import InfluxHandler.Sensu.Extract
import InfluxHandler.Influx.Tags
import InfluxHandler.Influx.Point
import InfluxHandler.Influx.Client
import InfluxHandler.Influx.Scan
import InfluxHandler.Influx.Key
import InfluxHandler.Influx.Fields
import InfluxHandler.Influx.Parse
import InfluxHandler.Influx.Values
import InfluxHandler.Influx.Wire
import InfluxHandler.Influx.Receive
import InfluxHandler.Influx.Shards
import InfluxHandler.Influx.Meta
import InfluxHandler.Influx.Writer
import InfluxHandler.Influx.Server
import InfluxHandler.Handler.Convert
import InfluxHandler.Handler.Accept
import InfluxHandler.Handler.Main
import InfluxHandler.Handler.Cut
import InfluxHandler.Handler.Timestamp
import InfluxHandler.Handler.Series
import InfluxHandler.Handler.Order
import InfluxHandler.Handler.Framing
import InfluxHandler.Handler.Refusal
import InfluxHandler.Handler.Delivery
import InfluxHandler.Handler.Stored
import InfluxHandler.Handler.Agent
import InfluxHandler.Handler.Relay
